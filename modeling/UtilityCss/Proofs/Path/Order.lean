import Mathlib.Data.List.Induction
import UtilityCss.Path.Basic

set_option autoImplicit false

namespace UtilityCss

namespace Component

theorem lt_irrefl (a : Component) : a.lt a = false := by
  cases a <;> simp [lt, rank]

theorem lt_trans {a b c : Component} (first : a.lt b) (second : b.lt c) : a.lt c := by
  cases a <;> cases b <;> cases c <;>
    simp only [lt, rank, decide_eq_true_eq, Nat.reduceLT] at first second ⊢
  exact String.lt_trans first second

theorem lt_or_gt {a b : Component} (different : a ≠ b) : a.lt b ∨ b.lt a := by
  cases a <;> cases b <;>
    simp only [lt, rank, decide_eq_true_eq, Nat.reduceLT, or_true, true_or, ne_eq, not_true_eq_false,
      Component.name.injEq] at different ⊢
  rename_i text other
  by_cases less : text < other
  · exact .inl less
  · exact .inr (Std.lt_of_le_of_ne (Std.not_lt.1 less) (Ne.symm different))

end Component

namespace Path

theorem componentsLt_irrefl (as : List Component) : componentsLt as as = false := by
  induction as with
  | nil => rfl
  | cons a as ih => simp [componentsLt, ih]

theorem componentsLt_trans {as bs cs : List Component} (first : componentsLt as bs)
    (second : componentsLt bs cs) : componentsLt as cs := by
  induction as generalizing bs cs with
  | nil => cases bs <;> cases cs <;> simp_all [componentsLt]
  | cons a as ih =>
    cases bs with
    | nil => simp [componentsLt] at first
    | cons b bs =>
      cases cs with
      | nil => simp [componentsLt] at second
      | cons c cs =>
        by_cases same : a = b
        · subst same
          by_cases equal : a = c
          · subst equal
            simp only [componentsLt, if_true] at first second ⊢
            exact ih first second
          · simpa [componentsLt, equal] using second
        · by_cases equal : b = c
          · subst equal
            simpa [componentsLt, same] using first
          · have less : a.lt b := by simpa [componentsLt, same] using first
            have step : b.lt c := by simpa [componentsLt, equal] using second
            have different : a ≠ c := by
              rintro rfl
              simpa [Component.lt_irrefl] using Component.lt_trans less step
            simpa [componentsLt, different] using Component.lt_trans less step

theorem componentsLt_or_gt {as bs : List Component} (different : as ≠ bs) :
    componentsLt as bs ∨ componentsLt bs as := by
  induction as generalizing bs with
  | nil => cases bs <;> simp_all [componentsLt]
  | cons a as ih =>
    cases bs with
    | nil => simp [componentsLt]
    | cons b bs =>
      by_cases same : a = b
      · subst same
        have rest : as ≠ bs := fun equal => different (by rw [equal])
        simpa [componentsLt] using ih rest
      · simpa [componentsLt, same, Ne.symm same] using Component.lt_or_gt same

theorem componentsLt_append (as bs cs : List Component) :
    componentsLt (as ++ bs) (as ++ cs) = componentsLt bs cs := by
  induction as with
  | nil => rfl
  | cons a as ih => simp [componentsLt, ih]

variable {p q r : Path} {paths : List Path}

theorem same_iff : p.same q ↔ p.components = q.components := by simp [same]

theorem same_refl (p : Path) : p.same p := same_iff.2 rfl

theorem same_comm : p.same q ↔ q.same p := by rw [same_iff, same_iff, eq_comm]

theorem lt_trans (first : p.lt q) (second : q.lt r) : p.lt r := componentsLt_trans first second

theorem not_same_of_lt (less : p.lt q) : ¬ p.same q := by
  rw [same_iff]
  intro equal
  simp [lt, equal, componentsLt_irrefl] at less

theorem gt_of_not_lt (different : ¬ p.same q) (later : ¬ p.lt q) : q.lt p :=
  (componentsLt_or_gt fun equal => different (same_iff.2 equal)).resolve_left later

def Increasing (paths : List Path) : Prop := paths.Pairwise fun p q => p.lt q

theorem mem_insertOrdered_of_mem (member : q ∈ paths) : q ∈ p.insertOrdered paths := by
  induction paths with
  | nil => simp at member
  | cons first rest ih =>
    simp only [insertOrdered]
    split_ifs
    · exact member
    · exact List.mem_cons_of_mem _ member
    · rcases List.mem_cons.1 member with rfl | later
      · exact List.mem_cons_self
      · exact List.mem_cons_of_mem _ (ih later)

theorem eq_or_mem_of_mem_insertOrdered (member : q ∈ p.insertOrdered paths) :
    q = p ∨ q ∈ paths := by
  induction paths with
  | nil => exact .inl (by simpa [insertOrdered] using member)
  | cons first rest ih =>
    simp only [insertOrdered] at member
    split_ifs at member
    · exact .inr member
    · simpa using member
    · rcases List.mem_cons.1 member with rfl | later
      · exact .inr List.mem_cons_self
      · exact (ih later).imp_right (List.mem_cons_of_mem _)

-- A new path is in the list afterwards, if need be in the spelling in which it was there before.
theorem exists_same_mem_insertOrdered (p : Path) (paths : List Path) :
    ∃ q ∈ p.insertOrdered paths, p.same q := by
  induction paths with
  | nil => exact ⟨p, by simp [insertOrdered], same_refl p⟩
  | cons first rest ih =>
    simp only [insertOrdered]
    split_ifs with same less
    · exact ⟨first, List.mem_cons_self, same⟩
    · exact ⟨p, List.mem_cons_self, same_refl p⟩
    · obtain ⟨q, member, same⟩ := ih
      exact ⟨q, List.mem_cons_of_mem _ member, same⟩

theorem increasing_insertOrdered (increasing : Increasing paths) :
    Increasing (p.insertOrdered paths) := by
  induction paths with
  | nil => simp [insertOrdered, Increasing]
  | cons first rest ih =>
    have ⟨least, others⟩ := List.pairwise_cons.1 increasing
    simp only [insertOrdered]
    split_ifs with same less
    · exact increasing
    · refine List.pairwise_cons.2 ⟨fun other member => ?_, increasing⟩
      rcases List.mem_cons.1 member with rfl | later
      · exact less
      · exact lt_trans less (least other later)
    · refine List.pairwise_cons.2 ⟨fun other member => ?_, ih others⟩
      rcases eq_or_mem_of_mem_insertOrdered member with rfl | later
      · exact gt_of_not_lt same less
      · exact least other later

theorem mem_insertOrdered_self (increasing : Increasing paths) :
    p ∈ p.insertOrdered paths ↔ p ∈ paths ∨ ∀ q ∈ paths, ¬ p.same q := by
  induction paths with
  | nil => simp [insertOrdered]
  | cons first rest ih =>
    have ⟨least, others⟩ := List.pairwise_cons.1 increasing
    simp only [insertOrdered]
    split_ifs with same less
    · simp [same]
    · refine iff_of_true List.mem_cons_self (.inr ?_)
      intro q member
      rcases List.mem_cons.1 member with rfl | later
      · exact same
      · exact not_same_of_lt (lt_trans less (least q later))
    · have different : p ≠ first := by
        rintro rfl
        exact same (same_refl p)
      simp [different, same, ih others]

def sorted (paths : List Path) : List Path := paths.foldl (fun sorted p => p.insertOrdered sorted) []

theorem sorted_append_singleton (paths : List Path) (p : Path) :
    sorted (paths ++ [p]) = p.insertOrdered (sorted paths) := by
  simp [sorted, List.foldl_append]

theorem increasing_sorted (paths : List Path) : Increasing (sorted paths) := by
  induction paths using List.reverseRecOn with
  | nil => exact List.Pairwise.nil
  | append_singleton paths p ih =>
    rw [sorted_append_singleton]
    exact increasing_insertOrdered ih

theorem same_eq (equal : p.same q) : (fun r : Path => r.same p) = fun r => r.same q := by
  funext r
  simp [same, same_iff.1 equal]

theorem mem_sorted : q ∈ sorted paths ↔ paths.find? (·.same q) = some q := by
  induction paths using List.reverseRecOn generalizing q with
  | nil => simp [sorted]
  | append_singleton paths p ih =>
    -- A path of the list stays found when another one is received.
    have stands (found : q ∈ sorted paths) :
        (paths ++ [p]).find? (·.same q) = some q := by
      rw [List.find?_append, ih.1 found, Option.some_or]
    rw [sorted_append_singleton]
    constructor
    · intro member
      rcases eq_or_mem_of_mem_insertOrdered member with rfl | earlier
      · rcases (mem_insertOrdered_self (increasing_sorted paths)).1 member with found | absent
        · exact stands found
        · -- No spelling came before it, for its first spelling would be in the list.
          have unseen : paths.find? (·.same q) = none := by
            rw [Option.eq_none_iff_forall_ne_some]
            intro r first
            have equal : r.same q := by simpa using List.find?_some first
            refine absent r (ih.2 ?_) (same_comm.1 equal)
            rwa [same_eq equal]
          simp [List.find?_append, unseen, same_refl]
      · exact stands earlier
    · intro first
      rw [List.find?_append] at first
      cases found : paths.find? (·.same q) with
      | some r =>
        rw [found, Option.some_or] at first
        exact mem_insertOrdered_of_mem (ih.2 (found.trans first))
      | none =>
        obtain ⟨equal, rfl⟩ : p.same q ∧ p = q := by simpa [found] using first
        refine (mem_insertOrdered_self (increasing_sorted paths)).2 (.inr ?_)
        intro r later same
        have other := List.mem_of_find?_eq_some (ih.1 later)
        exact List.find?_eq_none.1 found r other (same_comm.1 same)

end Path

end UtilityCss
