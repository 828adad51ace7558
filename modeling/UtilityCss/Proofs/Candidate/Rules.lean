import UtilityCss.Proofs.Candidate.Pool
import UtilityCss.Proofs.Candidate.Selectors

set_option autoImplicit false

namespace UtilityCss

namespace Generator

def keptRules (isKept : String → Bool) (candidates : List String) : String :=
  String.join (candidates.map fun candidate => if isKept candidate then rule candidate else "")

theorem join_rules_filter (isKept : String → Bool) (candidates : List String) :
    String.join ((candidates.filter isKept).map rule) = keptRules isKept candidates := by
  rw [keptRules]
  induction candidates with
  | nil => rfl
  | cons candidate rest ih => cases kept : isKept candidate <;> simp [kept, ih]

theorem rule_injective : Function.Injective rule := by
  intro candidate other same
  apply classSelector_injective
  simpa [rule] using same

end Generator

namespace CandidatePool

variable {small large : CandidatePool}

-- Both pools are in order, so what they share stands in the same order in both.
theorem filter_contains (increasing : Ordered.Increasing small.items)
    (increasingToo : Ordered.Increasing large.items) (contained : small.items ⊆ large.items) :
    large.items.filter small.contains = small.items := by
  have shared : Ordered.Increasing (large.items.filter small.contains) :=
    List.Pairwise.filter _ increasingToo
  apply shared.eq_of_mem_iff increasing
  intro candidate
  rw [List.mem_filter, contains, decide_eq_true_eq]
  exact ⟨And.right, fun member => ⟨contained member, member⟩⟩

end CandidatePool

open Generator CandidatePool

/-- Candidates have rules of their own behind the properties of the theme. With fewer candidates the
stylesheet is that of more candidates in which the rules of the missing ones are left out, and no
two candidates have the same selector. -/
theorem manifest_of_fewer (theme : Theme) (calls more : List CandidatePool.Call)
    (contained : (ofCalls calls).items ⊆ (ofCalls more).items) :
    manifest theme (ofCalls more) = .ok (rootRule (themeProperties theme) ++
      String.join ((ofCalls more).items.map rule)) ∧
    manifest theme (ofCalls calls) = .ok (rootRule (themeProperties theme) ++
      keptRules (ofCalls calls).contains (ofCalls more).items) ∧
    ((ofCalls more).items.map rule).Nodup ∧ Function.Injective classSelector := by
  have increasing := increasing_ofCalls calls
  have increasingToo := increasing_ofCalls more
  refine ⟨rfl, ?_, ?_, classSelector_injective⟩
  · rw [← join_rules_filter, filter_contains increasing increasingToo contained]
    rfl
  · exact (List.Pairwise.nodup increasingToo).map rule_injective

theorem manifest_of_fewer_flex :
    (ofCalls [.merge ["flex"]]).items ⊆ (ofCalls [.merge ["p-4", "flex"], .merge ["2xl:flex"]]).items ∧
      manifest ⟨[("spacing", .string "4px")]⟩ (ofCalls [.merge ["flex"]]) =
        .ok (":root \x7b\n  --spacing: 4px;\n\x7d\n" ++
          keptRules (· = "flex") ["2xl:flex", "flex", "p-4"]) := by
  have contained : (ofCalls [.merge ["flex"]]).items ⊆
      (ofCalls [.merge ["p-4", "flex"], .merge ["2xl:flex"]]).items := by decide +kernel
  obtain ⟨-, fewer, -⟩ := manifest_of_fewer ⟨[("spacing", .string "4px")]⟩ _ _ contained
  refine ⟨contained, fewer.trans ?_⟩
  decide +kernel

end UtilityCss
