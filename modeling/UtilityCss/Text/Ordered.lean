set_option autoImplicit false

namespace UtilityCss.Ordered

def add (text : String) : List String → List String
  | [] => [text]
  | other :: rest =>
    if text = other then other :: rest
    else if text < other then text :: other :: rest
    else other :: add text rest

def addAll (texts : List String) (set : List String) : List String :=
  texts.foldl (fun set text => add text set) set

def ofList (texts : List String) : List String := addAll texts []

@[simp] theorem mem_add {text other : String} {set : List String} :
    other ∈ add text set ↔ other = text ∨ other ∈ set := by
  induction set with
  | nil => simp [add]
  | cons first rest ih =>
    by_cases same : text = first
    · simp [add, same]
    · by_cases less : text < first
      · simp [add, same, less]
      · simp only [add, same, less, if_false, List.mem_cons, ih]
        constructor
        · rintro (h | h | h) <;> simp [h]
        · rintro (h | h | h) <;> simp [h]

@[simp] theorem mem_addAll {other : String} {texts set : List String} :
    other ∈ addAll texts set ↔ other ∈ texts ∨ other ∈ set := by
  induction texts generalizing set with
  | nil => simp [addAll]
  | cons text texts ih =>
    have step : addAll (text :: texts) set = addAll texts (add text set) := rfl
    rw [step, ih, mem_add, List.mem_cons]
    constructor
    · rintro (h | h | h) <;> simp [h]
    · rintro ((h | h) | h) <;> simp [h]

@[simp] theorem mem_ofList {other : String} {texts : List String} :
    other ∈ ofList texts ↔ other ∈ texts := by simp [ofList]

def Increasing (set : List String) : Prop := set.Pairwise (· < ·)

theorem increasing_add {text : String} {set : List String} (increasing : Increasing set) :
    Increasing (add text set) := by
  induction set with
  | nil => simp [add, Increasing]
  | cons first rest ih =>
    have ⟨least, others⟩ := List.pairwise_cons.1 increasing
    by_cases same : text = first
    · simpa [add, same] using increasing
    · by_cases less : text < first
      · simp only [add, same, less, if_true, if_false]
        refine List.pairwise_cons.2 ⟨fun other member => ?_, increasing⟩
        rcases List.mem_cons.1 member with rfl | later
        · exact less
        · exact String.lt_trans less (least other later)
      · simp only [add, same, less, if_false]
        refine List.pairwise_cons.2 ⟨fun other member => ?_, ih others⟩
        rcases mem_add.1 member with rfl | later
        · exact Std.lt_of_le_of_ne (Std.not_lt.1 less) (Ne.symm same)
        · exact least other later

end UtilityCss.Ordered
