import Mathlib.Data.List.DropRight
import Mathlib.Data.List.Induction
import Mathlib.Data.List.Nodup
import ImpToC.Proofs.Extraction

/-!
Functions found by an index. The definitions stand in the order in which they came, and beside
them a map leads from each name to the position of its definition, so that nothing has to be
searched. Only what is done with the table keeps the two in step. Whatever that is, the map
leads to the definitions and to nothing else, so it never leads beyond their end, and such a
table answers as a `FunctionTable` does: with the first definition that came under a name since
the table was cleared.
-/
namespace ImpToC.FunctionTable

/-- What can be done with a table. -/
inductive Step where
  | insert (d : FunctionDef)
  | get (name : String)
  | clear
  deriving Repr

inductive Answer where
  | inserted
  | rejected (d : FunctionDef)
  | found (d : Option FunctionDef)
  | cleared
  deriving Repr

def perform (t : FunctionTable) : Step → Answer × FunctionTable
  | .insert d =>
    match t.insert d with
    | .ok after => (.inserted, after)
    | .error d => (.rejected d, t)
  | .get name => (.found (t.get? name), t)
  | .clear => (.cleared, .empty)

def run (t : FunctionTable) : List Step → List Answer × FunctionTable
  | [] => ([], t)
  | step :: steps =>
    ((t.perform step).1 :: ((t.perform step).2.run steps).1, ((t.perform step).2.run steps).2)

/-- Definitions in the order of insertion, and where the one of each name stands. -/
structure Indexed where
  definitions : Array FunctionDef
  index : Std.HashMap String Nat

namespace Indexed

def empty : Indexed := ⟨#[], ∅⟩

/-- The definition goes to the end. If its name is taken, it is handed back. -/
def insert (t : Indexed) (d : FunctionDef) : Except FunctionDef Unit × Indexed :=
  if d.name ∈ t.index then (.error d, t)
  else (.ok (), ⟨t.definitions.push d, t.index.insert d.name t.definitions.size⟩)

/-- The definition that the index leads to. This fails if it leads beyond the last one. -/
def get? (t : Indexed) (name : String) : Option (Option FunctionDef) :=
  match t.index[name]? with
  | none => some none
  | some i => t.definitions[i]?.map some

def perform? (t : Indexed) : Step → Option (Answer × Indexed)
  | .insert d =>
    match t.insert d with
    | (.ok _, after) => some (.inserted, after)
    | (.error d, after) => some (.rejected d, after)
  | .get name => (t.get? name).map fun found => (.found found, t)
  | .clear => some (.cleared, .empty)

/-- One step after the other. -/
def run? (t : Indexed) : List Step → Option (List Answer × Indexed)
  | [] => some ([], t)
  | step :: steps =>
    (t.perform? step).bind fun first =>
      (first.2.run? steps).map fun others => (first.1 :: others.1, others.2)

/-- The same functions without the index. -/
def table (t : Indexed) : FunctionTable := ⟨t.definitions.toList⟩

/-- The index leads to all definitions, and to nothing else. -/
def InStep (t : Indexed) : Prop :=
  ∀ name i, t.index[name]? = some i ↔ ∃ d : FunctionDef, t.definitions[i]? = some d ∧ d.name = name

theorem inStep_empty : empty.InStep := by
  intro name i
  simp [empty]

namespace InStep

variable {t : Indexed}

/-- The position is taken down before the definition is there, and then it is the right one. -/
theorem push (inStep : t.InStep) {d : FunctionDef} (free : d.name ∉ t.index) :
    InStep ⟨t.definitions.push d, t.index.insert d.name t.definitions.size⟩ := by
  intro name i
  have old := inStep name i
  rw [Std.HashMap.getElem?_insert, Array.getElem?_push]
  by_cases same : d.name = name
  · -- The name is new, so it leads to the new position and stands at no other.
    subst same
    have unknown : t.index[d.name]? = none := Std.HashMap.getElem?_eq_none free
    rw [unknown] at old
    by_cases last : i = t.definitions.size
    · simp [last]
    · have other : t.definitions.size ≠ i := Ne.symm last
      simpa [last, other] using old
  · by_cases last : i = t.definitions.size
    · -- Nothing stood at the new position, so no other name can lead there.
      have beyond : ¬ ∃ e : FunctionDef, t.definitions[i]? = some e ∧ e.name = name := by simp [last]
      rw [← old] at beyond
      simpa [last, same] using beyond
    · simpa [last, same] using old

/-- A name that stands at two positions would have to lead to both of them. -/
theorem names_nodup (inStep : t.InStep) : t.table.names.Nodup := by
  rw [List.nodup_iff_getElem?_ne_getElem?]
  intro i j less inside same
  have leads {k : Nat} {name : String} (stands : t.table.names[k]? = some name) : t.index[name]? = some k := by
    rw [names, table, List.getElem?_map, Option.map_eq_some_iff] at stands
    obtain ⟨d, there, named⟩ := stands
    exact (inStep name k).mpr ⟨d, by simpa using there, named⟩
  have first := leads (same.trans (List.getElem?_eq_getElem inside))
  have second := leads (List.getElem?_eq_getElem inside)
  rw [first] at second
  cases second
  exact Nat.lt_irrefl i less

/-- A search ends where the index leads. -/
theorem position?_eq (inStep : t.InStep) (name : String) : t.table.position? name = t.index[name]? := by
  cases found : t.table.position? name with
  | some i =>
    obtain ⟨inside, same, _⟩ := List.findIdx?_eq_some_iff_getElem.mp found
    refine ((inStep name i).mpr ⟨_, ?_, eq_of_beq same⟩).symm
    rw [← Array.getElem?_toList]
    exact List.getElem?_eq_getElem inside
  | none =>
    symm
    rw [Option.eq_none_iff_forall_ne_some]
    intro i leads
    obtain ⟨d, there, named⟩ := (inStep name i).mp leads
    rw [← Array.getElem?_toList] at there
    have other := List.findIdx?_eq_none_iff.mp found d (List.mem_of_getElem? there)
    exact absurd named (ne_of_beq_false other)

theorem mem_index_iff (inStep : t.InStep) (name : String) : name ∈ t.index ↔ name ∈ t.table.names := by
  rw [Std.HashMap.mem_iff_isSome_getElem?, ← inStep.position?_eq, position?, List.findIdx?_isSome]
  simp [names]

/-- Nothing is read beyond the last definition. -/
theorem get?_eq (inStep : t.InStep) (name : String) : t.get? name = some (t.table.get? name) := by
  rw [get?, FunctionTable.get?, inStep.position?_eq]
  cases found : t.index[name]? with
  | none => rfl
  | some i =>
    obtain ⟨d, there, _⟩ := (inStep name i).mp found
    simp [table, there]

theorem insert_of_mem {d : FunctionDef} (inStep : t.InStep) (taken : d.name ∈ t.table.names) :
    t.insert d = (.error d, t) := by
  rw [insert, if_pos ((inStep.mem_index_iff d.name).mpr taken)]

theorem insert_of_not_mem {d : FunctionDef} (inStep : t.InStep) (free : d.name ∉ t.table.names) :
    ∃ after, t.insert d = (.ok (), after) ∧ after.table = ⟨t.table.definitions ++ [d]⟩ ∧ after.InStep := by
  have unknown : d.name ∉ t.index := fun known => free ((inStep.mem_index_iff d.name).mp known)
  refine ⟨_, if_neg unknown, ?_, inStep.push unknown⟩
  simp [table]

end InStep

end Indexed

theorem isSome_get?_iff (t : FunctionTable) (name : String) : (t.get? name).isSome ↔ name ∈ t.names := by
  rw [get?_eq_find?]
  simp [names]

theorem perform_insert_of_mem {t : FunctionTable} {d : FunctionDef} (taken : d.name ∈ t.names) :
    t.perform (.insert d) = (.rejected d, t) := by
  have refused : t.insert d = .error d := by
    cases given : t.insert d with
    | ok after => exact absurd taken (insert_ok.mp given).1
    | error other =>
      unfold insert at given
      cases found : t.position? d.name with
      | some i =>
        rw [found] at given
        exact given.symm
      | none =>
        rw [found] at given
        cases given
  rw [perform, refused]

theorem perform_insert_of_not_mem {t : FunctionTable} {d : FunctionDef} (free : d.name ∉ t.names) :
    t.perform (.insert d) = (.inserted, ⟨t.definitions ++ [d]⟩) := by
  rw [perform, insert_ok.mpr ⟨free, rfl⟩]

namespace Indexed.InStep

variable {t : Indexed}

/-- Each step does the same with the index as without it. -/
theorem perform?_eq (inStep : t.InStep) (step : Step) :
    ∃ after, t.perform? step = some ((t.table.perform step).1, after) ∧
      after.table = (t.table.perform step).2 ∧ after.InStep := by
  cases step with
  | insert d =>
    by_cases taken : d.name ∈ t.table.names
    · rw [perform?, inStep.insert_of_mem taken, perform_insert_of_mem taken]
      exact ⟨t, rfl, rfl, inStep⟩
    · obtain ⟨after, inserted, same, kept⟩ := inStep.insert_of_not_mem taken
      rw [perform?, inserted, perform_insert_of_not_mem taken]
      exact ⟨after, rfl, same, kept⟩
  | get name =>
    rw [perform?, inStep.get?_eq]
    exact ⟨t, rfl, rfl, inStep⟩
  | clear => exact ⟨empty, rfl, rfl, inStep_empty⟩

theorem run?_eq (inStep : t.InStep) (steps : List Step) :
    ∃ after, t.run? steps = some ((t.table.run steps).1, after) ∧
      after.table = (t.table.run steps).2 ∧ after.InStep := by
  induction steps generalizing t with
  | nil => exact ⟨t, rfl, rfl, inStep⟩
  | cons step steps ih =>
    obtain ⟨next, done, same, kept⟩ := inStep.perform?_eq step
    obtain ⟨after, others, same', kept'⟩ := ih kept
    rw [same] at others same'
    refine ⟨after, ?_, same', kept'⟩
    rw [run?, done, Option.bind_some, others]
    rfl

end Indexed.InStep

def Step.isClear : Step → Bool
  | .clear => true
  | _ => false

def Step.definition? : Step → Option FunctionDef
  | .insert d => some d
  | _ => none

/-- The definition that a step has added, by the answer to it. -/
def added? : Step × Answer → Option FunctionDef
  | (.insert d, .inserted) => some d
  | _ => none

theorem definitions_perform (t : FunctionTable) (step : Step) :
    (t.perform step).2.definitions =
      if step.isClear then [] else t.definitions ++ (added? (step, (t.perform step).1)).toList := by
  cases step with
  | insert d =>
    by_cases taken : d.name ∈ t.names
    · rw [perform_insert_of_mem taken]
      exact (List.append_nil _).symm
    · rw [perform_insert_of_not_mem taken]
      rfl
  | get name => exact (List.append_nil _).symm
  | clear => rfl

/-- A definition that comes is found from now on, if none was before it. -/
theorem get?_perform (t : FunctionTable) (step : Step) (name : String) :
    (t.perform step).2.get? name =
      if step.isClear then none
      else (t.get? name).or (step.definition?.toList.find? fun d => d.name == name) := by
  cases step with
  | insert d =>
    change _ = (t.get? name).or ([d].find? fun d => d.name == name)
    by_cases taken : d.name ∈ t.names
    · rw [perform_insert_of_mem taken]
      by_cases same : d.name = name
      · subst same
        obtain ⟨known, found⟩ := Option.isSome_iff_exists.mp ((t.isSome_get?_iff d.name).mpr taken)
        rw [found]
        rfl
      · simp [same]
    · rw [perform_insert_of_not_mem taken, get?_eq_find?, get?_eq_find?, List.find?_append]
  | get other => exact Option.or_none.symm
  | clear => rfl

theorem run_concat (t : FunctionTable) (steps : List Step) (step : Step) :
    t.run (steps ++ [step]) =
      ((t.run steps).1 ++ [((t.run steps).2.perform step).1], ((t.run steps).2.perform step).2) := by
  induction steps generalizing t with
  | nil => rfl
  | cons first steps ih =>
    rw [List.cons_append, run, ih, run]
    rfl

section Since

variable {α : Type} (clears : α → Bool) (gives : α → Option FunctionDef)

/-- All that was given since the last time that all was cleared. -/
def since (calls : List α) : List FunctionDef := (calls.rtakeWhile fun call => !clears call).filterMap gives

theorem since_concat (calls : List α) (call : α) :
    since clears gives (calls ++ [call]) =
      if clears call then [] else since clears gives calls ++ (gives call).toList := by
  rw [since, List.rtakeWhile_concat]
  cases clears call with
  | true => rfl
  | false =>
    rw [Bool.not_false, if_pos rfl, if_neg Bool.false_ne_true, List.filterMap_append, since]
    cases given : gives call <;> simp [given]

end Since

/-- The definitions that came since the table was cleared, also those whose name was taken. -/
def offered (steps : List Step) : List FunctionDef := since Step.isClear Step.definition? steps

/-- The definitions that were added since the table was cleared. -/
def accepted (steps : List Step) (answers : List Answer) : List FunctionDef :=
  since (fun call => call.1.isClear) added? (steps.zip answers)

theorem offered_concat (steps : List Step) (step : Step) :
    offered (steps ++ [step]) = if step.isClear then [] else offered steps ++ step.definition?.toList :=
  since_concat Step.isClear Step.definition? steps step

theorem accepted_concat {steps : List Step} {answers : List Answer} (length : steps.length = answers.length)
    (step : Step) (answer : Answer) :
    accepted (steps ++ [step]) (answers ++ [answer]) =
      if step.isClear then [] else accepted steps answers ++ (added? (step, answer)).toList := by
  rw [accepted, List.zip_append length]
  exact since_concat _ added? (steps.zip answers) (step, answer)

/-- What the steps so far have made of a table. -/
structure Recounts (steps : List Step) (answers : List Answer) (t : FunctionTable) : Prop where
  length : steps.length = answers.length
  definitions : t.definitions = accepted steps answers
  first : ∀ name, t.get? name = (offered steps).find? fun d => d.name == name

namespace Recounts

variable {steps : List Step} {answers : List Answer} {t : FunctionTable}

theorem mem_names_iff (recounts : Recounts steps answers t) (name : String) :
    name ∈ t.names ↔ ∃ d ∈ offered steps, d.name = name := by
  rw [← isSome_get?_iff, recounts.first]
  simp

theorem perform (recounts : Recounts steps answers t) (step : Step) :
    Recounts (steps ++ [step]) (answers ++ [(t.perform step).1]) (t.perform step).2 := by
  refine ⟨?_, ?_, ?_⟩
  · simp [recounts.length]
  · rw [definitions_perform, accepted_concat recounts.length, recounts.definitions]
  · intro name
    rw [get?_perform, offered_concat, recounts.first]
    split
    · rfl
    · exact List.find?_append.symm

end Recounts

theorem run_recounts (steps : List Step) : Recounts steps (empty.run steps).1 (empty.run steps).2 := by
  induction steps using List.reverseRecOn with
  | nil => exact ⟨rfl, rfl, fun _ => rfl⟩
  | append_singleton steps step ih =>
    rw [run_concat]
    exact ih.perform step

/-- Whatever is done with a table that is empty at first, no step fails: nothing is read beyond
the last definition, and all goes as in a `FunctionTable`. The index leads from a name to a
position exactly if a function of that name stands there. So no name comes twice, a name is
looked up as the first definition that came under it since the table was cleared, the
definitions stand in the order in which they were added since then, and one whose name is taken
is handed back and changes nothing. -/
theorem Indexed.run?_in_step (steps : List Step) :
    ∃ answers t, Indexed.empty.run? steps = some (answers, t) ∧
      FunctionTable.empty.run steps = (answers, t.table) ∧
      (∀ name, t.table.position? name = t.index[name]?) ∧
      (∀ name i, t.index[name]? = some i ↔ ∃ d : FunctionDef, t.definitions[i]? = some d ∧ d.name = name) ∧
      (t.definitions.toList.map FunctionDef.name).Nodup ∧
      (∀ name, t.get? name = some ((offered steps).find? fun d => d.name == name)) ∧
      (∀ name, t.get? name = some none ↔ ∀ d ∈ offered steps, d.name ≠ name) ∧
      t.definitions.toList = accepted steps answers ∧
      ∀ d, (t.insert d = (.error d, t) ∧ ∃ other ∈ offered steps, other.name = d.name) ∨
        ((t.insert d).1 = .ok () ∧ ∀ other ∈ offered steps, other.name ≠ d.name) := by
  obtain ⟨t, ran, same, inStep⟩ := inStep_empty.run?_eq steps
  have recounts := run_recounts steps
  change t.table = (FunctionTable.empty.run steps).2 at same
  rw [← same] at recounts
  have got (name : String) : t.get? name = some ((offered steps).find? fun d => d.name == name) := by
    rw [inStep.get?_eq, recounts.first]
  refine ⟨_, t, ran, ?_, inStep.position?_eq, inStep, inStep.names_nodup, got, ?_, recounts.definitions, ?_⟩
  · rw [same]
    rfl
  · intro name
    rw [got]
    simp
  · intro d
    by_cases taken : d.name ∈ t.table.names
    · exact .inl ⟨inStep.insert_of_mem taken, (recounts.mem_names_iff d.name).mp taken⟩
    · obtain ⟨after, inserted, _⟩ := inStep.insert_of_not_mem taken
      refine .inr ⟨by rw [inserted], ?_⟩
      intro other member named
      exact taken ((recounts.mem_names_iff d.name).mpr ⟨other, member, named⟩)

end ImpToC.FunctionTable
