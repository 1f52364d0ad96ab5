import Mathlib.Data.String.Basic
import ImpToC.Host.Machine
import ImpToC.Proofs.Effects.View

/-!
What calls do to a machine in memory. Questions leave it as it is, and its log is no part
of it. A file that was written can be read again and holds what was written to it. So the
machine is lawful, seen without its log.
-/
namespace ImpToC

namespace Path

theorem splitOnAux_slash (text : String) (b i : String.Pos.Raw) (found : List String) :
    text.splitOnAux "/" b i 0 found = text.splitAux (· == '/') b i found := by
  have slash : String.Pos.Raw.get "/" 0 = '/' := by decide
  have width : String.Pos.Raw.next "/" 0 = ⟨1⟩ := by decide
  have done : String.Pos.Raw.atEnd "/" ⟨1⟩ = true := by decide
  -- The separator has one character, so a search never stops in the midst of it.
  induction b, i, found using String.splitAux.induct text (· == '/') with
  | case1 b i found ended =>
    rw [String.splitOnAux, String.splitAux, if_pos ended, dif_pos ended]
  | case2 b i found going _ separates _ next =>
    have back : (String.Pos.Raw.next text i).unoffsetBy ⟨1⟩ = i := by
      rw [String.Pos.Raw.next, beq_iff_eq.mp separates]
      rfl
    rw [String.splitOnAux, String.splitAux, if_neg going, dif_neg going, slash, width,
      if_pos separates, if_pos separates]
    simp only [done, back, if_true]
    exact next
  | case3 b i found going _ continues next =>
    rw [String.splitOnAux, String.splitAux, if_neg going, dif_neg going, slash,
      if_neg continues, if_neg continues]
    exact next

/-- The parts of a path in a form that can be evaluated. -/
theorem parts_eq (path : String) :
    parts path = (path.toList.splitOnP (· == '/')).map String.ofList := by
  rw [← String.splitToList_of_valid]
  exact splitOnAux_slash path 0 0 []

end Path

namespace FileTree

variable {t : FileTree} {names other : List String} {entry : Entry}

theorem get?_set_self (inner : names ≠ []) : (t.set names entry).get? names = some entry := by
  cases names with
  | nil => exact absurd rfl inner
  | cons name names => simp [get?, set]

theorem lookup_filter_of_ne {entries : List (List String × Entry)} (ne : other ≠ names) :
    (entries.filter fun e => e.1 != names).lookup other = entries.lookup other := by
  induction entries with
  | nil => rfl
  | cons e entries ih =>
    rw [List.filter_cons]
    split
    · rw [List.lookup_cons, List.lookup_cons, ih]
    · next dropped =>
      have same : e.1 = names := by simpa using dropped
      have differs : (other == e.1) = false := by
        rw [same, beq_eq_false_iff_ne]
        exact ne
      rw [ih, List.lookup_cons, differs]

theorem get?_set_of_ne (ne : other ≠ names) : (t.set names entry).get? other = t.get? other := by
  cases other with
  | nil => rfl
  | cons name rest =>
    have differs : ((name :: rest) == names) = false := beq_eq_false_iff_ne.mpr ne
    rw [get?, get?, set, List.lookup_cons, differs]
    · exact lookup_filter_of_ne ne
    all_goals simp

/-- On the way to anything there are directories only, so a change that is no change of a
directory does not lead a path astray. -/
theorem walk_set {parts start last : List String} (free : t.get? names ≠ some .directory)
    (led : t.walk start parts = .ok last) : (t.set names entry).walk start parts = .ok last := by
  induction parts generalizing start with
  | nil => exact led
  | cons part parts ih =>
    rw [walk] at led ⊢
    cases here : t.get? start with
    | none => simp [here] at led
    | some found =>
      cases found with
      | file content executable => simp [here] at led
      | directory =>
        have ne : start ≠ names := by
          intro same
          rw [same] at here
          exact free here
        rw [get?_set_of_ne ne]
        simp only [here] at led ⊢
        split at led
        · next dot => rw [if_pos dot]; exact ih led
        · next named =>
          rw [if_neg named]
          split at led
          · next up => rw [if_pos up]; exact ih led
          · next down =>
            rw [if_neg down]
            split at led
            · cases led
            · next short => rw [if_neg short]; exact ih led

theorem resolve_set {cwd last : List String} {path : String} (free : t.get? names ≠ some .directory)
    (led : t.resolve cwd path = .ok last) : (t.set names entry).resolve cwd path = .ok last := by
  unfold resolve at led ⊢
  split at led
  · cases led
  · next given =>
    rw [if_neg given]
    split at led
    · cases led
    · next short =>
      rw [if_neg short]
      exact walk_set free led

theorem load_set {cwd : List String} {path : String} {content : Bytes} {executable : Bool}
    (free : t.get? names ≠ some .directory) (led : t.resolve cwd path = .ok names) :
    (t.set names (.file content executable)).load cwd path = .ok content := by
  have inner : names ≠ [] := by
    intro root
    rw [root] at free
    exact free rfl
  simp only [load, resolve_set free led, bind, Except.bind, get?_set_self inner]

/-- What was written to a file is what it holds. -/
theorem load_of_store {after : FileTree} {cwd : List String} {path : String} {content : Bytes}
    (stored : t.store cwd path content = .ok after) : after.load cwd path = .ok content := by
  unfold store at stored
  cases led : t.resolve cwd path with
  | error e =>
    rw [led] at stored
    cases stored
  | ok names =>
    simp only [led, bind, Except.bind] at stored
    cases here : t.get? names with
    | none =>
      simp only [here] at stored
      cases stored
      exact load_set (by simp [here]) led
    | some found =>
      simp only [here] at stored
      cases found with
      | directory => cases stored
      | file old executable =>
        cases stored
        exact load_set (by simp [here]) led

end FileTree

namespace Machine

open Host (Call)

variable {conventions : Host.Conventions} {find : Machine → String → Option Bytes} {programs : Programs}

/-- A question is answered by the machine alone. -/
theorem question_indistinct {α : Type} (answer : Machine → α) :
    Indistinct Prod.fst (fun w : Machine × Log => (answer w.1, w)) (fun w : Machine × Log => (answer w.1, w)) := by
  intro w w' same
  exact ⟨congrArg answer same, same⟩

/-- The log has no say in how files are changed. -/
theorem update_indistinct (change : Machine → Except SystemError FileTree) :
    Indistinct Prod.fst (update change) (update change) := by
  rintro ⟨s, log⟩ ⟨s', log'⟩ (rfl : s = s')
  cases changed : change s <;> simp [update, changed]

/-- Nor has it in what a program does. -/
theorem execute_indistinct (program : Bytes) (args : List String) :
    Indistinct Prod.fst ((host conventions find programs).execute program args)
      ((host conventions find programs).execute program args) := by
  rintro ⟨s, log⟩ ⟨s', log'⟩ (rfl : s = s')
  cases text : program.toText? with
  | none => simp [host, text]
  | some name => cases ran : execute programs name args s <;> simp [host, text, ran]

/-- Where the log has no say, the answer is that of every machine that looks the same. -/
theorem answered_of_indistinct {α : Type} {ask : StateM (Machine × Log) α} {answer : α}
    {before after other : Machine × Log} (alike : Indistinct Prod.fst ask ask) (answered : ask before = (answer, after))
    (same : other.1 = before.1) : ∃ later, ask other = (answer, later) ∧ later.1 = after.1 := by
  obtain ⟨equal, seen⟩ := alike other before same
  rw [answered] at equal seen
  exact ⟨(ask other).2, Prod.ext equal rfl, seen⟩

theorem load_of_stored {path : String} {content : Bytes} {before after : Machine × Log}
    (stored : update (fun s => s.files.store s.cwd path content) before = (.ok (), after)) :
    after.1.files.load after.1.cwd path = .ok content := by
  cases written : before.1.files.store before.1.cwd path content with
  | error e =>
    simp only [update, written] at stored
    cases stored
  | ok files =>
    simp only [update, written] at stored
    cases stored
    exact FileTree.load_of_store written

/-- A machine in memory keeps the laws, seen without its log. -/
theorem host_lawful : (host conventions find programs).Lawful Prod.fst where
  quiet {call before after} answered question := by
    cases call with
    | load path answer => exact (congrArg (Prod.fst ∘ Prod.snd) answered).symm
    | find name answer => exact (congrArg (Prod.fst ∘ Prod.snd) answered).symm
    | startLog filter => exact (congrArg (Prod.fst ∘ Prod.snd) answered).symm
    | log entry => exact (congrArg (Prod.fst ∘ Prod.snd) answered).symm
    | makeDirectories path answer => cases question
    | store path content answer => cases question
    | execute program args answer => cases question
  decided {call before after other} answered alike := by
    cases call with
    | load path answer =>
      exact answered_of_indistinct (question_indistinct fun s => s.files.load s.cwd path) answered alike
    | find name answer => exact answered_of_indistinct (question_indistinct fun s => find s name) answered alike
    | startLog filter => exact ⟨_, rfl, alike.trans (congrArg (Prod.fst ∘ Prod.snd) answered)⟩
    | log entry => exact ⟨_, rfl, alike.trans (congrArg (Prod.fst ∘ Prod.snd) answered)⟩
    | makeDirectories path answer => exact answered_of_indistinct (update_indistinct _) answered alike
    | store path content answer => exact answered_of_indistinct (update_indistinct _) answered alike
    | execute program args answer => exact answered_of_indistinct (execute_indistinct program args) answered alike
  kept stored := load_of_stored stored

end Machine

end ImpToC
