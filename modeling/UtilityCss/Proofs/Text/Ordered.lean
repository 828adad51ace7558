import Mathlib.Data.List.Sort
import UtilityCss.Text.Ordered

set_option autoImplicit false

namespace UtilityCss.Ordered

theorem increasing_addAll (texts : List String) {set : List String} (increasing : Increasing set) :
    Increasing (addAll texts set) := by
  induction texts generalizing set with
  | nil => exact increasing
  | cons text rest ih => exact ih (increasing_add increasing)

theorem increasing_ofList (texts : List String) : Increasing (ofList texts) :=
  increasing_addAll texts List.Pairwise.nil

theorem ofList_eq_of_mem_iff {texts others : List String}
    (same : ∀ text, text ∈ texts ↔ text ∈ others) : ofList texts = ofList others := by
  apply (increasing_ofList texts).eq_of_mem_iff (increasing_ofList others)
  intro text
  rw [mem_ofList, mem_ofList, same]

end UtilityCss.Ordered
