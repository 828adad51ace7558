import Mathlib.Data.List.Forall2

set_option autoImplicit false

namespace UtilityCss

variable {α β ε : Type} {result : Except ε α} {error : ε}

theorem exists_of_isOk (succeeds : result.isOk) : ∃ value, result = .ok value := by
  cases result with
  | error error => cases succeeds
  | ok value => exact ⟨value, rfl⟩

theorem isOk_map (change : α → β) (result : Except ε α) :
    (result.map change).isOk = result.isOk := by
  cases result <;> rfl

theorem map_eq_ok {change : α → β} {changed : β} :
    result.map change = .ok changed ↔ ∃ value, result = .ok value ∧ change value = changed := by
  cases result <;> simp [Except.map]

theorem map_eq_error {change : α → β} : result.map change = .error error ↔ result = .error error := by
  cases result <;> simp [Except.map]

theorem mapError_eq_ok {other : Type} {change : ε → other} {value : α} :
    result.mapError change = .ok value ↔ result = .ok value := by
  cases result <;> simp [Except.mapError]

theorem bind_eq_ok {next : α → Except ε β} {last : β} :
    result >>= next = .ok last ↔ ∃ value, result = .ok value ∧ next value = .ok last := by
  cases result <;> simp [bind, Except.bind]

variable {f : α → Except ε β} {items : List α} {results : List β}

theorem mapM_eq_ok :
    items.mapM f = .ok results ↔ List.Forall₂ (fun item result => f item = .ok result) items results := by
  induction items generalizing results with
  | nil =>
    rw [List.mapM_nil, List.forall₂_nil_left_iff, eq_comm]
    exact ⟨fun same => (Except.ok.inj same), fun same => congrArg Except.ok same⟩
  | cons item rest ih =>
    rw [List.mapM_cons, List.forall₂_cons_left_iff]
    cases first : f item with
    | error fault => simp [bind, Except.bind]
    | ok value =>
      cases later : rest.mapM f with
      | error fault => simp [bind, Except.bind, ← ih, later]
      | ok values =>
        simp only [bind, Except.bind, pure, Except.pure, Except.ok.injEq, ← ih, later]
        exact ⟨fun same => ⟨_, _, rfl, rfl, same.symm⟩, fun ⟨_, _, one, more, same⟩ => by
          rw [one, more, same]⟩

theorem mapM_eq_error :
    items.mapM f = .error error ↔ ∃ before item after, items = before ++ item :: after ∧
      (∀ earlier ∈ before, ∃ result, f earlier = .ok result) ∧ f item = .error error := by
  induction items with
  | nil => simp [pure, Except.pure]
  | cons item rest ih =>
    rw [List.mapM_cons]
    cases first : f item with
    | error fault =>
      simp only [bind, Except.bind, Except.error.injEq]
      constructor
      · rintro rfl
        exact ⟨[], item, rest, rfl, by simp, first⟩
      · rintro ⟨before, other, after, split, succeed, fails⟩
        rcases List.cons_eq_append_iff.1 split with ⟨-, same⟩ | ⟨more, rfl, -⟩
        · obtain ⟨rfl, -⟩ := List.cons.inj same
          exact Except.error.inj (first.symm.trans fails)
        · obtain ⟨result, isOk⟩ := succeed item List.mem_cons_self
          cases first.symm.trans isOk
    | ok value =>
      have goesOn : (rest.mapM f).bind (fun values => Except.ok (value :: values)) = .error error ↔
          rest.mapM f = .error error := by cases rest.mapM f <;> simp [Except.bind]
      refine goesOn.trans (ih.trans ⟨?_, ?_⟩)
      · rintro ⟨before, other, after, rfl, succeed, fails⟩
        exact ⟨item :: before, other, after, rfl,
          List.forall_mem_cons.2 ⟨⟨value, first⟩, succeed⟩, fails⟩
      · rintro ⟨before, other, after, split, succeed, fails⟩
        rcases List.cons_eq_append_iff.1 split with ⟨-, same⟩ | ⟨more, rfl, same⟩
        · obtain ⟨rfl, -⟩ := List.cons.inj same
          cases first.symm.trans fails
        · exact ⟨more, other, after, same, (List.forall_mem_cons.1 succeed).2, fails⟩

end UtilityCss
