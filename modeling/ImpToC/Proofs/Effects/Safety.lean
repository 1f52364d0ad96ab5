import ImpToC.Proofs.Bytewise.Utf8
import ImpToC.Proofs.Effects.Files
import ImpToC.Proofs.Effects.Sessions

/-!
Nothing is touched before everything is checked. A session asks questions first: it reads
the source and looks for a compiler. Only if the source has C, the C is to be built and a
compiler is known does it go on to change anything, and then it writes that C, runs the
compiler on it, and runs what the compiler made if the compiler was content. The log is
told of all this, and has no say in it.
-/
namespace ImpToC

open Host (Call Calls)

namespace Settings

/-- Not there, or empty. -/
def Unset (lookup : String → Option String) (key : String) : Prop :=
  lookup key = none ∨ lookup key = some ""

/-- A switch that is unset or zero. -/
def Off (lookup : String → Option String) (key : String) : Prop := Unset lookup key ∨ lookup key = some "0"

variable {lookup : String → Option String} {key : String}

instance : Decidable (Unset lookup key) := inferInstanceAs (Decidable (_ ∨ _))

instance : Decidable (Off lookup key) := inferInstanceAs (Decidable (_ ∨ _))

theorem set?_eq_none_iff : set? lookup key = none ↔ Unset lookup key := by
  unfold set? Unset
  cases lookup key with
  | none => simp
  | some value => simp [Option.filter]

theorem set?_eq_some_iff {value : String} :
    set? lookup key = some value ↔ lookup key = some value ∧ value ≠ "" := by
  rw [set?, Option.filter_eq_some_iff, bne_iff_ne]

theorem switch_eq_false_iff : switch lookup key = false ↔ Off lookup key := by
  unfold switch Off
  cases found : set? lookup key with
  | none => simp [set?_eq_none_iff.mp found]
  | some value =>
    obtain ⟨given, some⟩ := set?_eq_some_iff.mp found
    simp [Unset, given, some]

end Settings

/-- What stands in a list and not in its first part stands behind that part. -/
theorem split_behind {α : Type} {xs ys before later : List α} {y : α}
    (same : xs ++ ys = before ++ y :: later) (absent : y ∉ xs) :
    ∃ front, before = xs ++ front ∧ ys = front ++ y :: later := by
  rcases List.append_eq_append_iff.mp same with ⟨front, behind, rest⟩ | ⟨back, inside, rest⟩
  · exact ⟨front, behind, rest⟩
  · cases back with
    | nil =>
      rw [List.append_nil] at inside
      exact ⟨[], by rw [inside, List.append_nil], rest.symm⟩
    | cons z back =>
      obtain ⟨rfl, _⟩ := List.cons.inj rest
      exact absurd (by simp [inside]) absent

namespace Build

theorem Searches.quiet {names : List String} {calls : List Call} {result : Option Bytes}
    (searched : Searches names calls result) : ∀ call ∈ calls, call.changes = false := by
  induction searched with
  | nowhere => simp
  | found => simp [Call.changes]
  | later _ ih => exact List.forall_mem_cons.mpr ⟨rfl, ih⟩

/-- A search gives what its answers say first. -/
theorem Searches.result_eq {names : List String} {calls : List Call} {result : Option Bytes}
    (searched : Searches names calls result) {answer : String → Option Bytes}
    (answered : ∀ name found, .find name found ∈ calls → answer name = found) :
    names.findSome? answer = result := by
  induction searched with
  | nowhere => rfl
  | @found name names path =>
    rw [List.findSome?_cons, answered name (some path) (by simp)]
  | @later name names calls result _ ih =>
    rw [List.findSome?_cons, answered name none (by simp)]
    exact ih fun name found member => answered name found (by simp [member])

/-- Whether it comes from the settings or from the variable itself, the compiler that is named
is what `CC` holds, text or not. -/
theorem named?_eq (env : Environment) :
    named? env (Settings.ofEnvironment env).compiler = (env "CC").filter fun path => path != [] := by
  unfold named?
  cases configured : (Settings.ofEnvironment env).compiler with
  | none => rfl
  | some text =>
    obtain ⟨given, _⟩ := Settings.set?_eq_some_iff.mp configured
    obtain ⟨bytes, held, decoded⟩ := Option.bind_eq_some_iff.mp given
    rw [held, Option.map_some, Option.some_or, Bytes.ofText_of_toText? decoded]

theorem Chooses.quiet {env : Environment} {configured : Option String} {calls : List Call}
    {result : Option Bytes} (chooses : Chooses env configured calls result) :
    ∀ call ∈ calls, call.changes = false := by
  cases chooses with
  | named given => simp
  | searched unnamed searched => exact searched.quiet

theorem Locates.quiet {env : Environment} {configured : Option String} {calls : List Call}
    {result : Except BuildError Bytes} (located : Locates env configured calls result) :
    ∀ call ∈ calls, call.changes = false := by
  cases located with
  | chosen chooses => exact List.forall_mem_append.mpr ⟨chooses.quiet, by simp [Call.changes]⟩
  | missing chooses => exact chooses.quiet

/-- Executables are run without arguments, and a compiler has three. -/
theorem Compiles.args_of_execute {compiler program : Bytes} {directory code : String} {calls : List Call}
    {args : List String} {answer : Except SystemError Finished} {result : Except BuildError String}
    (compiles : Compiles compiler directory code calls result) (member : .execute program args answer ∈ calls) :
    program = compiler ∧ args = compilerArgs directory := by
  cases compiles <;> simp_all [writing]

theorem Compiles.stored {compiler : Bytes} {directory code path : String} {calls : List Call} {content : Bytes}
    {answer : Except SystemError Unit} {result : Except BuildError String}
    (compiles : Compiles compiler directory code calls result) (member : .store path content answer ∈ calls) :
    path = sourcePath directory ∧ content = .ofText code := by
  cases compiles <;> simp_all [writing]

/-- Only what a successful compiler made is run. -/
theorem Compiles.succeeded {compiler : Bytes} {directory code executable : String} {calls : List Call}
    (compiles : Compiles compiler directory code calls (.ok executable)) :
    executable = executablePath directory ∧
      ∃ finished, finished.status.isSuccess = true ∧
        .execute compiler (compilerArgs directory) (.ok finished) ∈ calls := by
  cases compiles with
  | @done finished success => exact ⟨rfl, finished, success, by simp⟩

theorem Builds.stored {compiler : Bytes} {directory code path : String} {calls : List Call} {content : Bytes}
    {answer : Except SystemError Unit} {result : Except BuildError String}
    (builds : Builds compiler directory code calls result) (member : .store path content answer ∈ calls) :
    path = sourcePath directory ∧ content = .ofText code := by
  cases builds with
  | stopped compiles => exact compiles.stored member
  | ran compiles runs =>
    rcases List.mem_append.mp member with early | late
    · exact compiles.stored early
    · cases runs <;> simp at late

/-- Only two programs are run: the compiler, and then what it made if it was content. -/
theorem Builds.executed {compiler program : Bytes} {directory code : String} {calls before later : List Call}
    {args : List String} {answer : Except SystemError Finished} {result : Except BuildError String}
    (builds : Builds compiler directory code calls result)
    (split : calls = before ++ .execute program args answer :: later) :
    (program = compiler ∧ args = compilerArgs directory) ∨
      program = .ofText (executablePath directory) ∧ args = [] ∧
        ∃ finished, finished.status.isSuccess = true ∧
          .execute compiler (compilerArgs directory) (.ok finished) ∈ before := by
  cases builds with
  | stopped compiles =>
    have member : .execute program args answer ∈ calls := by simp [split]
    exact .inl (compiles.args_of_execute member)
  | @ran first more executable _ compiles runs =>
    by_cases early : .execute program args answer ∈ first
    · exact .inl (compiles.args_of_execute early)
    · obtain ⟨front, rfl, rest⟩ := split_behind split early
      obtain ⟨rfl, finished, success, made⟩ := compiles.succeeded
      right
      have alone : ∃ answer', more = [.execute (.ofText (executablePath directory)) [] answer'] := by
        cases runs <;> exact ⟨_, rfl⟩
      obtain ⟨answer', rfl⟩ := alone
      cases front with
      | nil =>
        cases rest
        exact ⟨rfl, rfl, finished, success, List.mem_append_left _ made⟩
      | cons _ _ => simp at rest

/-- What a build prints is what the program printed that was built. -/
theorem Builds.printed {compiler : Bytes} {directory code stdout : String} {calls : List Call}
    (builds : Builds compiler directory code calls (.ok stdout)) :
    ∃ finished, .execute (.ofText (executablePath directory)) [] (.ok finished) ∈ calls ∧
      finished.status.isSuccess = true ∧ stdout = Bytes.toTextLossy finished.stdout := by
  cases builds with
  | ran compiles runs =>
    obtain ⟨rfl, _⟩ := compiles.succeeded
    cases runs with
    | @done finished success => exact ⟨finished, by simp, success, rfl⟩

end Build

namespace Command

/-- Where an invocation puts what it makes. -/
abbrev Invocation.outputDir (invocation : Invocation) : String :=
  (Settings.ofEnvironment invocation.env).outputDir

theorem Fetches.quiet {path : String} {calls : List Call} {result : Except String String}
    (fetched : Fetches path calls result) : ∀ call ∈ calls, call.changes = false := by
  cases fetched <;> simp [Call.changes]

theorem told_quiet (settings : Settings) (source : String) :
    ∀ call ∈ told settings source, call.changes = false := by
  intro call member
  obtain ⟨entry, _, rfl⟩ := List.mem_map.mp member
  rfl

variable {conventions : Host.Conventions} {invocation : Invocation} {calls : List Call} {report : Report}

/-- A session that comes to building: the questions that are asked first, and what is done
once they are answered. -/
inductive Attempt (invocation : Invocation) (calls : List Call) : Prop where
  | mk {path source code : String} {compiler bytes : Bytes} {questions asked actions : List Call}
      {result : Except BuildError String} (given : invocation.args = [path])
      (split : calls = questions ++ actions) (quiet : ∀ call ∈ questions, call.changes = false)
      (loaded : .load path (.ok bytes) ∈ questions) (text : bytes.toText? = some source)
      (compiled : compile source = .ok code) (off : (Settings.ofEnvironment invocation.env).emitOnly = false)
      (among : ∀ call ∈ asked, call ∈ questions)
      (chosen : Build.Chooses invocation.env (Settings.ofEnvironment invocation.env).compiler asked (some compiler))
      (builds : Build.Builds compiler invocation.outputDir code actions result)

/-- Either a session changes nothing, or all has been checked. -/
theorem Session.quiet_or_attempt (session : Session conventions invocation calls report) :
    (∀ call ∈ calls, call.changes = false) ∨ Attempt invocation calls := by
  cases session with
  | usage wrong => exact .inl (by simp)
  | @started path calls report given handles =>
    cases handles with
    | unread fetched => exact .inl (List.forall_mem_cons.mpr ⟨rfl, fetched.quiet⟩)
    | rejected fetched failed =>
      exact .inl (List.forall_mem_cons.mpr ⟨rfl, List.forall_mem_append.mpr ⟨fetched.quiet, told_quiet _ _⟩⟩)
    | printed fetched compiled only =>
      exact .inl (List.forall_mem_cons.mpr ⟨rfl, List.forall_mem_append.mpr ⟨fetched.quiet, told_quiet _ _⟩⟩)
    | @executed source code calls more report fetched compiled off executes =>
      have read : ∀ call ∈ calls ++ told (Settings.ofEnvironment invocation.env) source, call.changes = false :=
        List.forall_mem_append.mpr ⟨fetched.quiet, told_quiet _ _⟩
      cases executes with
      | noCompiler located =>
        exact .inl (List.forall_mem_cons.mpr ⟨rfl, List.forall_mem_append.mpr ⟨read, located.quiet⟩⟩)
      | @built looked actions compiler result locates builds =>
        right
        have quiet := List.forall_mem_append.mpr ⟨read, locates.quiet⟩
        cases fetched with
        | @text bytes source text =>
          cases locates with
          | @chosen asked _ chooses =>
            refine .mk given (List.append_assoc (.startLog _ :: (_ ++ _)) _ actions).symm
              (List.forall_mem_cons.mpr ⟨rfl, quiet⟩) (by simp) text compiled off (fun call member => ?_) chooses builds
            simp [member]

theorem Session.exitCode_eq_two_iff (session : Session conventions invocation calls report) :
    report.exitCode = 2 ↔ invocation.args.length ≠ 1 := by
  cases session with
  | usage wrong => simpa using wrong
  | started given handles =>
    cases handles with
    | unread fetched => simp [failure, given]
    | rejected fetched failed => simp [given]
    | printed fetched compiled only => simp [given]
    | executed fetched compiled off executes =>
      cases executes with
      | noCompiler located => simp [failure, given]
      | @built _ _ _ result locates builds => cases result <;> simp [buildReport, failure, given]

theorem Session.stdout_eq_empty (session : Session conventions invocation calls report)
    (failed : report.exitCode ≠ 0) : report.stdout = "" := by
  cases session with
  | usage wrong => rfl
  | started given handles =>
    cases handles with
    | unread fetched => rfl
    | rejected fetched failed => rfl
    | printed fetched compiled only => exact absurd rfl failed
    | executed fetched compiled off executes =>
      cases executes with
      | noCompiler located => rfl
      | @built _ _ _ result locates builds =>
        cases result with
        | ok stdout => exact absurd rfl failed
        | error e => rfl

/-- A session that succeeds has printed the C, or what the program printed that was built. -/
theorem Session.printed_or_ran (session : Session conventions invocation calls report)
    (success : report.exitCode = 0) :
    (∃ path source bytes, invocation.args = [path] ∧ (∀ call ∈ calls, call.changes = false) ∧
      .load path (.ok bytes) ∈ calls ∧ bytes.toText? = some source ∧
      compile source = .ok report.stdout ∧ ¬ Settings.Off invocation.env.text? "CCCP_EMIT_ONLY") ∨
    ∃ finished,
      .execute (.ofText (Build.executablePath invocation.outputDir)) [] (.ok finished) ∈ calls ∧
        finished.status.isSuccess = true ∧ report.stdout = Bytes.toTextLossy finished.stdout := by
  cases session with
  | usage wrong => cases success
  | @started path calls report given handles =>
    cases handles with
    | unread fetched => cases success
    | rejected fetched failed => cases success
    | @printed source code asked fetched compiled only =>
      left
      have quiet := List.forall_mem_append.mpr
        ⟨fetched.quiet, told_quiet (Settings.ofEnvironment invocation.env) source⟩
      cases fetched with
      | @text bytes _ text =>
        refine ⟨path, source, bytes, given, List.forall_mem_cons.mpr ⟨rfl, quiet⟩, by simp, text, compiled,
          fun off => ?_⟩
        have switched := Settings.switch_eq_false_iff.mpr off
        rw [show Settings.switch _ _ = true from only] at switched
        cases switched
    | executed fetched compiled off executes =>
      right
      cases executes with
      | noCompiler located => cases success
      | @built _ _ _ result locates builds =>
        cases result with
        | error e => cases success
        | ok stdout =>
          obtain ⟨finished, ran, ended, printed⟩ := builds.printed
          exact ⟨finished, by simp [ran], ended, printed⟩

variable {W V : Type} {host : Host (StateM W)} {view : W → V} {s after : W}

/-- The only argument names a file that can be read, and this is its text. -/
def Provides (host : Host (StateM W)) (invocation : Invocation) (s : W) (source : String) : Prop :=
  ∃ path bytes, invocation.args = [path] ∧ (host.load path s).1 = .ok bytes ∧ bytes.toText? = some source

/-- The compiler is what `CC` holds, be it a text or not. If that is nothing, it is the first
candidate that the host finds. -/
def Chosen (host : Host (StateM W)) (env : Environment) (s : W) (compiler : Bytes) : Prop :=
  (env "CC" = some compiler ∧ compiler ≠ []) ∨
    ((env "CC" = none ∨ env "CC" = some []) ∧
      Build.candidates.findSome? (fun name => (host.find name s).1) = some compiler)

/-- What has to hold before a session changes anything. -/
structure Permits (host : Host (StateM W)) (invocation : Invocation) (s : W) (source code : String)
    (compiler : Bytes) : Prop where
  provided : Provides host invocation s source
  compiled : compile source = .ok code
  building : Settings.Off invocation.env.text? "CCCP_EMIT_ONLY"
  chosen : Chosen host invocation.env s compiler

theorem Chosen.of_chooses {env : Environment} {compiler : Bytes}
    (chooses : Build.Chooses env (Settings.ofEnvironment env).compiler calls (some compiler))
    (answered : ∀ name found, .find name found ∈ calls → (host.find name s).1 = found) :
    Chosen host env s compiler := by
  cases chooses with
  | named given =>
    rw [Build.named?_eq, Option.filter_eq_some_iff, bne_iff_ne] at given
    exact .inl given
  | searched unnamed searched =>
    refine .inr ⟨?_, searched.result_eq answered⟩
    rw [Build.named?_eq] at unnamed
    cases held : env "CC" with
    | none => exact .inl rfl
    | some path =>
      rw [held] at unnamed
      right
      simpa [Option.filter] using unnamed

/-- The questions of a session are all answered as the world at the beginning would. -/
theorem Attempt.permits (attempt : Attempt invocation calls) (lawful : host.Lawful view)
    (made : Calls host s calls after) :
    ∃ source code compiler questions actions result, Permits host invocation s source code compiler ∧
      calls = questions ++ actions ∧ (∀ call ∈ questions, call.changes = false) ∧
      Build.Builds compiler invocation.outputDir code actions result := by
  obtain ⟨given, split, quiet, loaded, text, compiled, off, among, chosen, builds⟩ := attempt
  rw [split] at made
  obtain ⟨middle, asked, _⟩ := Host.calls_append.mp made
  obtain ⟨_, answered⟩ := lawful.of_questions asked quiet
  obtain ⟨_, read⟩ := answered _ loaded
  refine ⟨_, _, _, _, _, _, ⟨⟨_, _, given, congrArg Prod.fst read, text⟩, compiled,
    Settings.switch_eq_false_iff.mp off, .of_chooses chosen fun name found member => ?_⟩, split, quiet, builds⟩
  obtain ⟨_, found⟩ := answered _ (among _ member)
  exact congrArg Prod.fst found

theorem Session.permits_of_change (session : Session conventions invocation calls report)
    (lawful : host.Lawful view) (made : Calls host s calls after)
    (changed : (∃ call ∈ calls, call.changes = true) ∨ view after ≠ view s) :
    ∃ source code compiler, Permits host invocation s source code compiler := by
  rcases session.quiet_or_attempt with quiet | attempt
  · rcases changed with ⟨call, member, changes⟩ | moved
    · rw [quiet call member] at changes
      cases changes
    · exact absurd (lawful.of_questions made quiet).1 moved
  · obtain ⟨source, code, compiler, _, _, _, permits, _⟩ := attempt.permits lawful made
    exact ⟨source, code, compiler, permits⟩

/-- A call that changes something is part of a build. -/
theorem Session.build_of_change (session : Session conventions invocation calls report)
    (lawful : host.Lawful view) (made : Calls host s calls after) {call : Call} {before later : List Call}
    (split : calls = before ++ call :: later) (changes : call.changes = true) :
    ∃ source code compiler front result, Permits host invocation s source code compiler ∧
      Build.Builds compiler invocation.outputDir code (front ++ call :: later) result ∧
      ∀ other ∈ front, other ∈ before := by
  rcases session.quiet_or_attempt with quiet | attempt
  · have question := quiet call (by simp [split])
    rw [question] at changes
    cases changes
  · obtain ⟨source, code, compiler, questions, actions, result, permits, parted, quiet, builds⟩ :=
      attempt.permits lawful made
    have action : call ∉ questions := by
      intro member
      rw [quiet call member] at changes
      cases changes
    obtain ⟨front, rfl, rfl⟩ := split_behind (parted.symm.trans split) action
    exact ⟨source, code, compiler, front, result, permits, builds, fun other member =>
      List.mem_append_right _ member⟩

/-- What is written is the C of the source, and right after the call the file holds it. -/
theorem Session.stored (session : Session conventions invocation calls report) (lawful : host.Lawful view)
    (made : Calls host s calls after) {path : String} {content : Bytes}
    {before later : List Call} (split : calls = before ++ .store path content (.ok ()) :: later) :
    path = Build.sourcePath invocation.outputDir ∧
      ∃ source code compiler middle, Permits host invocation s source code compiler ∧
        Calls host s (before ++ [.store path content (.ok ())]) middle ∧ Calls host middle later after ∧
        (host.load path middle).1 = .ok content ∧ content.toText? = some code := by
  obtain ⟨source, code, compiler, front, result, permits, builds, _⟩ :=
    session.build_of_change lawful made split rfl
  have member : .store path content (.ok ()) ∈ front ++ .store path content (.ok ()) :: later := by simp
  obtain ⟨there, rfl⟩ := builds.stored member
  rw [split] at made
  obtain ⟨earlier, first, rest⟩ := Host.calls_append.mp made
  cases rest with
  | @cons _ middle _ _ _ stored others =>
    refine ⟨there, source, code, compiler, middle, permits, ?_, others, lawful.kept stored,
      Bytes.toText?_ofText code⟩
    exact Host.calls_append.mpr ⟨earlier, first, .cons stored .nil⟩

theorem Session.executed_after (session : Session conventions invocation calls report)
    (lawful : host.Lawful view) (made : Calls host s calls after) {program : Bytes} {args : List String}
    {answer : Except SystemError Finished} {before later : List Call}
    (split : calls = before ++ .execute program args answer :: later) :
    (args = Build.compilerArgs invocation.outputDir ∧
        ∃ source code, Permits host invocation s source code program) ∨
      program = .ofText (Build.executablePath invocation.outputDir) ∧ args = [] ∧
        ∃ compiler finished, finished.status.isSuccess = true ∧
          .execute compiler (Build.compilerArgs invocation.outputDir) (.ok finished) ∈ before := by
  obtain ⟨source, code, compiler, front, result, permits, builds, earlier⟩ :=
    session.build_of_change lawful made split rfl
  rcases builds.executed rfl with ⟨rfl, args⟩ | ⟨made, args, finished, success, compiled⟩
  · exact .inl ⟨args, source, code, permits⟩
  · exact .inr ⟨made, args, compiler, finished, success, earlier _ compiled⟩

/-- Programs that make a product out of their arguments, and answer without any. -/
def toolchain (answer : String) : Programs := fun _ _ args files =>
  if args = [] then .ok (⟨.code 0, .ofText answer, []⟩, files)
  else .ok (⟨.code 0, [], []⟩, files.set ["output", "output"] (.file [] true))

/-- A machine where one program is found, and every filter of the log is good. -/
def finding (name path : String) (programs : Programs) : Host (StateM (Machine × Machine.Log)) :=
  Machine.host ⟨fun _ => true, fun message _ => message⟩
    (fun _ wanted => if wanted = name then some (.ofText path) else none) programs

def oneFile (text : String) : Machine × Machine.Log :=
  (⟨⟨[(["a"], .file (.ofText text) false), (["gcc"], .file [] true)]⟩, [], none⟩, ⟨none, []⟩)

def debugging : Invocation :=
  ⟨"imp", ["a"], fun key => if key = "CCCP_DEBUG" then some (.ofText "1") else none⟩

end Command

end ImpToC
