import UtilityCss.Proofs.Config.References
import UtilityCss.Theme.Resolution

set_option autoImplicit false

namespace UtilityCss.Theme

open UtilityCss.Config

inductive Plan (α : Type) where
  | done (value : α)
  | fail (error : SettingsError)
  | ask (path : String) (next : Except SettingsError (Option Value) → Plan α)

namespace Plan

variable {α β : Type}

def andThen (next : α → Plan β) : Plan α → Plan β
  | .done value => next value
  | .fail error => .fail error
  | .ask path more => .ask path fun found => (more found).andThen next

def run (asked : String → Step (Option Value)) : Plan α → Step α
  | .done value => fun memory => (.ok value, memory)
  | .fail error => fun memory => (.error error, memory)
  | .ask path next => fun memory =>
    let (found, memory) := asked path memory
    (next found).run asked memory

theorem run_andThen (asked : String → Step (Option Value)) (plan : Plan α) (next : α → Plan β)
    (memory : Memory) :
    (plan.andThen next).run asked memory =
      match plan.run asked memory with
      | (.ok value, memory) => (next value).run asked memory
      | (.error error, memory) => (.error error, memory) := by
  induction plan generalizing memory with
  | done value => rfl
  | fail error => rfl
  | ask path more ih => exact ih _ _

def answered (value? : String → Option Value) : Plan α → Except SettingsError α
  | .done value => .ok value
  | .fail error => .error error
  | .ask path next => (next (.ok (value? path))).answered value?

def asked (value? : String → Option Value) : Plan α → List String
  | .done _ => []
  | .fail _ => []
  | .ask path next => path :: (next (.ok (value? path))).asked value?

def Refers (kind : String → Prop) : Plan α → Prop
  | .done _ => True
  | .fail _ => True
  | .ask path next => kind path ∧ (∀ error, next (.error error) = .fail error) ∧
    (∃ error, next (.ok none) = .fail error) ∧ ∀ found, (next (.ok found)).Refers kind

theorem answered_andThen (value? : String → Option Value) (plan : Plan α) (next : α → Plan β) :
    (plan.andThen next).answered value? =
      (plan.answered value?).bind fun value => (next value).answered value? := by
  induction plan with
  | done value => rfl
  | fail error => rfl
  | ask path more ih => exact ih _

theorem answered_congr {value? other? : String → Option Value} {plan : Plan α}
    (same : ∀ path ∈ plan.asked value?, value? path = other? path) :
    plan.answered value? = plan.answered other? ∧ plan.asked value? = plan.asked other? := by
  induction plan with
  | done value => exact ⟨rfl, rfl⟩
  | fail error => exact ⟨rfl, rfl⟩
  | ask path next ih =>
    have first : value? path = other? path := same path List.mem_cons_self
    have rest := ih (.ok (value? path)) fun path member => same path (List.mem_cons_of_mem _ member)
    simp only [answered, asked, ← first]
    exact ⟨rest.1, by rw [rest.2]⟩

theorem Refers.asked {kind : String → Prop} {plan : Plan α} (refers : plan.Refers kind)
    (value? : String → Option Value) : ∀ path ∈ plan.asked value?, kind path := by
  induction plan with
  | done value => simp [Plan.asked]
  | fail error => simp [Plan.asked]
  | ask path next ih =>
    rw [Plan.asked, List.forall_mem_cons]
    exact ⟨refers.1, ih _ (refers.2.2.2 _)⟩

theorem Refers.isSome {kind : String → Prop} {plan : Plan α} (refers : plan.Refers kind)
    {value? : String → Option Value} {value : α} (succeeds : plan.answered value? = .ok value) :
    ∀ path ∈ plan.asked value?, (value? path).isSome := by
  induction plan with
  | done value => simp [Plan.asked]
  | fail error => simp [Plan.asked]
  | ask path next ih =>
    obtain ⟨-, -, ⟨error, missing⟩, goes⟩ := refers
    rw [Plan.answered] at succeeds
    rw [Plan.asked, List.forall_mem_cons]
    refine ⟨?_, ih _ (goes _) succeeds⟩
    cases found : value? path with
    | none =>
      rw [found, missing] at succeeds
      cases succeeds
    | some value => rfl

theorem Refers.andThen {kind : String → Prop} {plan : Plan α} {next : α → Plan β}
    (first : plan.Refers kind) (rest : ∀ value, (next value).Refers kind) :
    (plan.andThen next).Refers kind := by
  induction plan with
  | done value => exact rest value
  | fail error => trivial
  | ask path more ih =>
    obtain ⟨isKind, ends, ⟨missing, fails⟩, goes⟩ := first
    refine ⟨isKind, fun error => ?_, ⟨missing, ?_⟩, fun found => ih _ (goes found)⟩
    · change (more (.error error)).andThen next = .fail error
      rw [ends]
      rfl
    · change (more (.ok none)).andThen next = .fail missing
      rw [fails]
      rfl

def ofQuery : Query → Plan Value
  | .done value => .done value
  | .fail error => .fail error
  | .ask path next => .ask path fun found => ofQuery (next found)

mutual

def ofSetting : Setting → Plan Value
  | .literal value => .done value
  | .deferred value => ofQuery value.query
  | .table entries => (ofEntries entries).andThen fun values => .done (.table values)

def ofEntries : List (String × Setting) → Plan (List (String × Value))
  | [] => .done []
  | (key, setting) :: rest =>
    (ofSetting setting).andThen fun value =>
      (ofEntries rest).andThen fun values => .done ((key, value) :: values)

end

def ofSetting? (combine : Option Value → Value → Value) (running : Option Value) :
    Option Setting → Plan (Option Value)
  | none => .done running
  | some setting => (ofSetting setting).andThen fun value => .done (some (combine running value))

def ofSections (key : String) : List (Table Setting) → Option Value → Plan (Option Value)
  | [], running => .done running
  | part :: rest, running =>
    (ofSetting? (fun _ value => value) running (definition? key part)).andThen fun running =>
      (ofSetting? Value.extendWith running (addition? key part)).andThen fun running =>
        ofSections key rest running

theorem refers_reference {kind : String → Prop} {path : String} (isKind : kind path) :
    (ofQuery (Query.reference path)).Refers kind := by
  refine ⟨isKind, fun error => rfl, ⟨_, rfl⟩, fun found => ?_⟩
  cases found <;> trivial

mutual

theorem refers_ofSetting {kind : String → Prop} :
    ∀ setting : Setting, setting.Refers kind → (ofSetting setting).Refers kind
  | .literal _, _ => trivial
  | .deferred value, refers => by
    obtain ⟨path, rfl, isKind⟩ := refers value (by simp [Setting.deferredValues])
    exact refers_reference isKind
  | .table entries, refers =>
    (refers_ofEntries entries (Setting.refers_table.1 refers)).andThen fun _ => trivial

theorem refers_ofEntries {kind : String → Prop} :
    ∀ entries : List (String × Setting), (∀ entry ∈ entries, entry.2.Refers kind) →
      (ofEntries entries).Refers kind
  | [], _ => trivial
  | (_, setting) :: rest, refers => by
    obtain ⟨first, others⟩ := List.forall_mem_cons.1 refers
    exact (refers_ofSetting setting first).andThen fun _ =>
      (refers_ofEntries rest others).andThen fun _ => trivial

end

theorem refers_ofSetting? {kind : String → Prop} (combine : Option Value → Value → Value)
    (running : Option Value) {setting : Option Setting}
    (refers : ∀ found ∈ setting, found.Refers kind) :
    (ofSetting? combine running setting).Refers kind := by
  cases setting with
  | none => trivial
  | some setting => exact (refers_ofSetting setting (refers setting rfl)).andThen fun _ => trivial

def settingsFor (key : String) (sections : List (Table Setting)) : List Setting :=
  sections.flatMap fun part => (definition? key part).toList ++ (addition? key part).toList

section Paths

variable {value? : String → Option Value} {kind : String → Prop}

theorem answered_andThen_ok {plan : Plan α} {next : α → Plan β} {result : β}
    (succeeds : (plan.andThen next).answered value? = .ok result) :
    ∃ value, plan.answered value? = .ok value ∧ (next value).answered value? = .ok result ∧
      (plan.andThen next).asked value? = plan.asked value? ++ (next value).asked value? := by
  induction plan with
  | done value => exact ⟨value, rfl, succeeds, rfl⟩
  | fail error => cases succeeds
  | ask path more ih =>
    obtain ⟨value, first, rest, paths⟩ := ih _ succeeds
    exact ⟨value, first, rest, congrArg (path :: ·) paths⟩

mutual

theorem asked_ofSetting : ∀ (setting : Setting), setting.Refers kind → ∀ result,
    (ofSetting setting).answered value? = .ok result →
      (ofSetting setting).asked value? = setting.paths
  | .literal _, _, _, _ => rfl
  | .deferred value, refers, _, _ => by
    obtain ⟨path, rfl, -⟩ := refers value (by simp [Setting.deferredValues])
    cases found : value? path <;>
      simp [ofSetting, Deferred.query, Query.reference, Query.get, ofQuery, asked, found,
        Setting.paths, Setting.deferredValues]
  | .table entries, refers, result, succeeds => by
    obtain ⟨values, first, -, paths⟩ := answered_andThen_ok succeeds
    rw [ofSetting, paths, asked_ofEntries entries (Setting.refers_table.1 refers) values first]
    simp [asked, Setting.paths, Setting.deferredValues]

theorem asked_ofEntries : ∀ (entries : List (String × Setting)),
    (∀ entry ∈ entries, entry.2.Refers kind) → ∀ result,
      (ofEntries entries).answered value? = .ok result →
        (ofEntries entries).asked value? = (Setting.table entries).paths
  | [], _, _, _ => rfl
  | (_, setting) :: rest, refers, result, succeeds => by
    obtain ⟨own, others⟩ := List.forall_mem_cons.1 refers
    obtain ⟨value, first, later, paths⟩ := answered_andThen_ok succeeds
    obtain ⟨values, second, -, more⟩ := answered_andThen_ok later
    rw [ofEntries, paths, more, asked_ofSetting setting own value first,
      asked_ofEntries rest others values second]
    simp [asked, Setting.paths, Setting.deferredValues, Setting.deferredEntries]

end

theorem asked_ofSetting? {combine : Option Value → Value → Value} {running result : Option Value}
    {setting : Option Setting} (refers : ∀ found ∈ setting, found.Refers kind)
    (succeeds : (ofSetting? combine running setting).answered value? = .ok result) :
    (ofSetting? combine running setting).asked value? = setting.toList.flatMap Setting.paths := by
  cases setting with
  | none => rfl
  | some setting =>
    obtain ⟨value, first, -, paths⟩ := answered_andThen_ok succeeds
    rw [ofSetting?, paths, asked_ofSetting setting (refers setting rfl) value first]
    simp [asked]

theorem asked_ofSections {key : String} {sections : List (Table Setting)}
    (refers : ∀ setting ∈ settingsFor key sections, setting.Refers kind)
    {running result : Option Value}
    (succeeds : (ofSections key sections running).answered value? = .ok result) :
    (ofSections key sections running).asked value? =
      (settingsFor key sections).flatMap Setting.paths := by
  induction sections generalizing running with
  | nil => rfl
  | cons part rest ih =>
    simp only [settingsFor, List.flatMap_cons, List.mem_append, Option.mem_toList] at refers
    obtain ⟨defined, first, later, paths⟩ := answered_andThen_ok succeeds
    obtain ⟨added, second, last, more⟩ := answered_andThen_ok later
    rw [ofSections, paths, more,
      asked_ofSetting? (fun found member => refers found (.inl (.inl member))) first,
      asked_ofSetting? (fun found member => refers found (.inl (.inr member))) second,
      ih (fun found member => refers found (.inr member)) last]
    simp [settingsFor]

end Paths

theorem refers_ofSections {kind : String → Prop} {key : String} {sections : List (Table Setting)}
    (refers : ∀ setting ∈ settingsFor key sections, setting.Refers kind) (running : Option Value) :
    (ofSections key sections running).Refers kind := by
  induction sections generalizing running with
  | nil => trivial
  | cons part rest ih =>
    simp only [settingsFor, List.flatMap_cons, List.mem_append, Option.mem_toList] at refers
    refine (refers_ofSetting? _ _ fun found member => ?_).andThen fun _ =>
      (refers_ofSetting? _ _ fun found member => ?_).andThen fun _ => ih (fun found member => ?_) _
    · exact refers found (.inl (.inl member))
    · exact refers found (.inl (.inr member))
    · exact refers found (.inr member)

end Plan

def replacedOver? (value? : String → Option Value) (combine : Option Value → Value → Value)
    (running : Option Value) : Option Setting → Option (Option Value)
  | none => some running
  | some setting => (setting.replaced? value?).map fun value => some (combine running value)

/-- The fold of the sections into the value of a key, when all references have a value: what a
section defines replaces the running value, and what it adds is merged into that. -/
def folded? (value? : String → Option Value) (key : String) :
    List (Table Setting) → Option Value → Option (Option Value)
  | [], running => some running
  | part :: rest, running => do
    let running ← replacedOver? value? (fun _ value => value) running (definition? key part)
    let running ← replacedOver? value? Value.extendWith running (addition? key part)
    folded? value? key rest running

section Answers

variable (value? : String → Option Value)

theorem toOption_bind {α β : Type} (result : Except SettingsError α)
    (next : α → Except SettingsError β) :
    (result.bind next).toOption = result.toOption.bind fun value => (next value).toOption := by
  cases result <;> rfl

mutual

theorem toOption_answered_ofSetting {kind : String → Prop} :
    ∀ setting : Setting, setting.Refers kind →
      ((Plan.ofSetting setting).answered value?).toOption = setting.replaced? value?
  | .literal _, _ => rfl
  | .deferred value, refers => by
    obtain ⟨path, rfl, -⟩ := refers value (by simp [Setting.deferredValues])
    cases found : value? path <;>
      simp [Plan.ofSetting, Deferred.query, Query.reference, Query.get, Plan.ofQuery,
        Plan.answered, Setting.replaced?, found, Except.toOption]
  | .table entries, refers => by
    rw [Plan.ofSetting, Plan.answered_andThen, toOption_bind,
      toOption_answered_ofEntries entries (Setting.refers_table.1 refers), Setting.replaced?]
    cases Setting.replacedEntries? value? entries <;> rfl

theorem toOption_answered_ofEntries {kind : String → Prop} :
    ∀ entries : List (String × Setting), (∀ entry ∈ entries, entry.2.Refers kind) →
      ((Plan.ofEntries entries).answered value?).toOption =
        Setting.replacedEntries? value? entries
  | [], _ => rfl
  | (key, setting) :: rest, refers => by
    obtain ⟨first, others⟩ := List.forall_mem_cons.1 refers
    simp only [Plan.ofEntries, Plan.answered_andThen, toOption_bind,
      toOption_answered_ofSetting setting first, toOption_answered_ofEntries rest others,
      Setting.replacedEntries?]
    rfl

end

theorem toOption_answered_ofSetting? {kind : String → Prop}
    (combine : Option Value → Value → Value) (running : Option Value) {setting : Option Setting}
    (refers : ∀ found ∈ setting, found.Refers kind) :
    ((Plan.ofSetting? combine running setting).answered value?).toOption =
      replacedOver? value? combine running setting := by
  cases setting with
  | none => rfl
  | some setting =>
    rw [Plan.ofSetting?, Plan.answered_andThen, toOption_bind,
      toOption_answered_ofSetting value? setting (refers setting rfl), replacedOver?]
    cases setting.replaced? value? <;> rfl

theorem toOption_answered_ofSections {kind : String → Prop} {key : String}
    {sections : List (Table Setting)}
    (refers : ∀ setting ∈ Plan.settingsFor key sections, setting.Refers kind)
    (running : Option Value) :
    ((Plan.ofSections key sections running).answered value?).toOption =
      folded? value? key sections running := by
  induction sections generalizing running with
  | nil => rfl
  | cons part rest ih =>
    simp only [Plan.settingsFor, List.flatMap_cons, List.mem_append, Option.mem_toList] at refers
    have later : ∀ setting ∈ Plan.settingsFor key rest, setting.Refers kind :=
      fun setting member => refers setting (.inr member)
    simp only [Plan.ofSections, Plan.answered_andThen, toOption_bind, ih later,
      toOption_answered_ofSetting? value? _ _ fun found member => refers found (.inl (.inl member)),
      toOption_answered_ofSetting? value? _ _ fun found member => refers found (.inl (.inr member)),
      folded?]
    rfl

end Answers

section Runs

variable (asked : String → Step (Option Value))

theorem answer_eq (query : Query) : answer asked query = (Plan.ofQuery query).run asked := by
  induction query with
  | done value => rfl
  | fail error => rfl
  | ask path next ih =>
    funext memory
    exact congrFun (ih _) _

mutual

theorem evaluate_eq : ∀ setting, evaluate asked setting = (Plan.ofSetting setting).run asked
  | .literal value => rfl
  | .deferred value => answer_eq asked value.query
  | .table entries => by
    funext memory
    simp only [evaluate, Plan.ofSetting, Plan.run_andThen, evaluateEntries_eq entries]
    rcases (Plan.ofEntries entries).run asked memory with ⟨_ | _, after⟩ <;> rfl

theorem evaluateEntries_eq :
    ∀ entries, evaluateEntries asked entries = (Plan.ofEntries entries).run asked
  | [] => rfl
  | (key, setting) :: rest => by
    funext memory
    simp only [evaluateEntries, Plan.ofEntries, Plan.run_andThen, evaluate_eq setting,
      evaluateEntries_eq rest]
    rcases (Plan.ofSetting setting).run asked memory with ⟨_ | _, after⟩
    · rfl
    · dsimp only
      rcases (Plan.ofEntries rest).run asked after with ⟨_ | _, last⟩ <;> rfl

end

theorem apply_eq (combine : Option Value → Value → Value) (setting : Option Setting)
    (running : Option Value) :
    apply asked combine setting running = (Plan.ofSetting? combine running setting).run asked := by
  funext memory
  cases setting with
  | none => rfl
  | some setting =>
    simp only [apply, Plan.ofSetting?, Plan.run_andThen, evaluate_eq]
    rcases (Plan.ofSetting setting).run asked memory with ⟨_ | _, after⟩ <;> rfl

theorem mergeSections_eq (key : String) (sections : List (Table Setting))
    (running : Option Value) :
    mergeSections asked key sections running =
      (Plan.ofSections key sections running).run asked := by
  induction sections generalizing running with
  | nil => rfl
  | cons part rest ih =>
    funext memory
    simp only [mergeSections, Plan.ofSections, Plan.run_andThen, apply_eq]
    rcases (Plan.ofSetting? (fun _ value => value) running (definition? key part)).run asked
      memory with ⟨_ | defined, after⟩
    · rfl
    · dsimp only
      rcases (Plan.ofSetting? Value.extendWith defined (addition? key part)).run asked
        after with ⟨_ | added, last⟩
      · rfl
      · exact congrFun (ih added) last

end Runs

end UtilityCss.Theme
