import UtilityCss.Text.Ordered

set_option autoImplicit false

namespace UtilityCss

structure CandidatePool where
  items : List String
  revision : Nat
  deriving DecidableEq, Repr

namespace CandidatePool

def empty : CandidatePool := ⟨[], 0⟩

def contains (pool : CandidatePool) (candidate : String) : Bool := candidate ∈ pool.items

def size (pool : CandidatePool) : Nat := pool.items.length

def isEmpty (pool : CandidatePool) : Bool := pool.items.isEmpty

def grows (pool : CandidatePool) (candidates : List String) : Bool :=
  candidates.any fun candidate => !pool.contains candidate

def merge (pool : CandidatePool) (candidates : List String) : CandidatePool :=
  if pool.grows candidates then ⟨Ordered.addAll candidates pool.items, pool.revision + 1⟩ else pool

def ofList (candidates : List String) : CandidatePool := empty.merge candidates

theorem mem_merge {pool : CandidatePool} {candidates : List String} {candidate : String} :
    candidate ∈ (pool.merge candidates).items ↔
      candidate ∈ candidates ∨ candidate ∈ pool.items := by
  unfold merge
  split
  · simp
  · rename_i still
    simp only [grows, contains, List.any_eq_true, not_exists, not_and, Bool.not_eq_true',
      decide_eq_false_iff_not, Classical.not_not] at still
    exact ⟨Or.inr, fun h => h.elim (still candidate) id⟩

end CandidatePool

end UtilityCss
