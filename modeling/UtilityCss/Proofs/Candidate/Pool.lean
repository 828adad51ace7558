import Mathlib.Data.List.Induction
import UtilityCss.Candidate.Pool
import UtilityCss.Proofs.Text.Ordered

set_option autoImplicit false

namespace UtilityCss.CandidatePool

section Merge

variable (pool : CandidatePool) (found : List String)

theorem revision_le_merge : pool.revision ≤ (pool.merge found).revision := by
  unfold merge
  split <;> simp

theorem grows_iff : pool.grows found = true ↔ (pool.merge found).revision ≠ pool.revision := by
  unfold merge
  split <;> simp_all

theorem merge_of_same_revision (same : (pool.merge found).revision = pool.revision) :
    pool.merge found = pool := by
  have still : pool.grows found = false := by
    simpa [same] using (grows_iff pool found).not
  simp [merge, still]

theorem merge_nil : pool.merge [] = pool := by
  simp [merge, grows]

theorem increasing_empty : Ordered.Increasing empty.items := List.Pairwise.nil

end Merge

theorem increasing_merge {pool : CandidatePool} (increasing : Ordered.Increasing pool.items)
    (found : List String) : Ordered.Increasing (pool.merge found).items := by
  unfold merge
  split
  · exact Ordered.increasing_addAll found increasing
  · exact increasing

structure GrowsInto (before after : CandidatePool) : Prop where
  kept : ∀ candidate ∈ before.items, candidate ∈ after.items
  revision : before.revision ≤ after.revision
  later_iff : before.revision < after.revision ↔ ∃ candidate ∈ after.items, candidate ∉ before.items

variable {before middle after : CandidatePool}

theorem GrowsInto.refl (pool : CandidatePool) : pool.GrowsInto pool :=
  ⟨fun _ member => member, Nat.le_refl _, by simp⟩

theorem GrowsInto.trans (first : before.GrowsInto middle) (second : middle.GrowsInto after) :
    before.GrowsInto after where
  kept candidate member := second.kept candidate (first.kept candidate member)
  revision := Nat.le_trans first.revision second.revision
  later_iff := by
    constructor
    · intro later
      by_cases early : before.revision < middle.revision
      · obtain ⟨candidate, member, new⟩ := first.later_iff.1 early
        exact ⟨candidate, second.kept candidate member, new⟩
      · obtain ⟨candidate, member, new⟩ := second.later_iff.1 (by omega)
        exact ⟨candidate, member, mt (first.kept candidate) new⟩
    · rintro ⟨candidate, member, new⟩
      by_cases early : candidate ∈ middle.items
      · exact Nat.lt_of_lt_of_le (first.later_iff.2 ⟨candidate, early, new⟩) second.revision
      · exact Nat.lt_of_le_of_lt first.revision (second.later_iff.2 ⟨candidate, member, early⟩)

theorem growsInto_merge (pool : CandidatePool) (found : List String) :
    pool.GrowsInto (pool.merge found) where
  kept candidate member := mem_merge.2 (.inr member)
  revision := pool.revision_le_merge found
  later_iff := by
    have grows : pool.revision < (pool.merge found).revision ↔ pool.grows found = true := by
      rw [grows_iff]
      have := pool.revision_le_merge found
      omega
    simp only [grows, CandidatePool.grows, contains, List.any_eq_true, mem_merge]
    constructor
    · rintro ⟨candidate, member, new⟩
      exact ⟨candidate, .inl member, by simpa using new⟩
    · rintro ⟨candidate, member | member, new⟩
      · exact ⟨candidate, member, by simpa using new⟩
      · exact absurd member new

theorem GrowsInto.subset_of_le (grows : before.GrowsInto after)
    (late : after.revision ≤ before.revision) : ∀ candidate ∈ after.items, candidate ∈ before.items := by
  intro candidate member
  by_contra new
  exact absurd (grows.later_iff.2 ⟨candidate, member, new⟩) (Nat.not_lt.2 late)

theorem GrowsInto.le_iff_subset (grows : before.GrowsInto after) :
    after.revision ≤ before.revision ↔ after.items ⊆ before.items := by
  constructor
  · intro late candidate member
    exact grows.subset_of_le late candidate member
  · intro inside
    by_contra late
    obtain ⟨candidate, member, new⟩ := grows.later_iff.1 (Nat.lt_of_not_le late)
    exact new (inside member)

inductive Call where
  | merge (candidates : List String)
  | snapshot

def perform (pool : CandidatePool) : Call → CandidatePool
  | .merge candidates => pool.merge candidates
  | .snapshot => pool

def ofCalls (calls : List Call) : CandidatePool := calls.foldl perform empty

def shown (pool : CandidatePool) : List Call → List CandidatePool
  | [] => []
  | .merge candidates :: rest => (pool.merge candidates).shown rest
  | .snapshot :: rest => pool :: pool.shown rest

def Call.brought : Call → List String
  | .merge candidates => candidates
  | .snapshot => []

def Call.isNewBehind (before : List Call) (call : Call) : Bool :=
  call.brought.any fun candidate => candidate ∉ before.flatMap brought

def additions (calls : List Call) : Nat :=
  calls.zipIdx.countP fun (call, index) => call.isNewBehind (calls.take index)

variable {pool : CandidatePool} {calls : List Call}

theorem ofCalls_concat (calls : List Call) (call : Call) :
    ofCalls (calls ++ [call]) = (ofCalls calls).perform call := by
  simp [ofCalls]

theorem perform_eq_merge (pool : CandidatePool) (call : Call) :
    pool.perform call = pool.merge call.brought := by
  cases call with
  | merge candidates => rfl
  | snapshot => exact (merge_nil pool).symm

theorem increasing_ofCalls (calls : List Call) : Ordered.Increasing (ofCalls calls).items := by
  induction calls using List.reverseRecOn with
  | nil => exact increasing_empty
  | append_singleton calls call ih =>
    rw [ofCalls_concat, perform_eq_merge]
    exact increasing_merge ih _

theorem mem_ofCalls {candidate : String} :
    candidate ∈ (ofCalls calls).items ↔ candidate ∈ calls.flatMap Call.brought := by
  induction calls using List.reverseRecOn with
  | nil => simp [ofCalls, empty]
  | append_singleton calls call ih =>
    rw [ofCalls_concat, perform_eq_merge, mem_merge, ih, List.flatMap_append, List.mem_append,
      List.flatMap_singleton, or_comm]

theorem additions_concat (calls : List Call) (call : Call) :
    additions (calls ++ [call]) = additions calls + (call.isNewBehind calls).toNat := by
  have early : ∀ entry ∈ calls.zipIdx, (calls ++ [call]).take entry.2 = calls.take entry.2 := by
    rintro ⟨other, index⟩ member
    have within : index < calls.length := by simpa using (List.mem_zipIdx member).2.1
    exact List.take_append_of_le_length (Nat.le_of_lt within)
  have same : calls.zipIdx.countP (fun entry =>
      entry.1.isNewBehind ((calls ++ [call]).take entry.2)) = additions calls :=
    List.countP_congr fun entry member => by rw [early entry member]
  cases new : call.isNewBehind calls <;>
    simp [additions, List.zipIdx_append, List.countP_append, same, new]

-- A call adds what is new to the pool just if it is new behind the calls before it.
theorem grows_ofCalls (calls : List Call) (call : Call) :
    (ofCalls calls).grows call.brought = call.isNewBehind calls := by
  simp only [grows, contains, Call.isNewBehind, mem_ofCalls, decide_not]

theorem revision_ofCalls (calls : List Call) : (ofCalls calls).revision = additions calls := by
  induction calls using List.reverseRecOn with
  | nil => rfl
  | append_singleton calls call ih =>
    rw [ofCalls_concat, perform_eq_merge, additions_concat, ← grows_ofCalls, ← ih, merge]
    cases (ofCalls calls).grows call.brought <;> rfl

theorem growsInto_foldl (pool : CandidatePool) (calls : List Call) :
    pool.GrowsInto (calls.foldl perform pool) := by
  induction calls generalizing pool with
  | nil => exact .refl pool
  | cons call rest ih =>
    have first : pool.GrowsInto (pool.perform call) :=
      perform_eq_merge pool call ▸ pool.growsInto_merge call.brought
    exact first.trans (ih _)

theorem growsInto_of_prefix {early late : List Call} (start : early <+: late) :
    (ofCalls early).GrowsInto (ofCalls late) := by
  obtain ⟨rest, rfl⟩ := start
  rw [ofCalls, ofCalls, List.foldl_append]
  exact growsInto_foldl _ rest

theorem growsInto_or_growsInto {early late : List Call} (start : early <+: calls)
    (begins : late <+: calls) :
    (ofCalls early).GrowsInto (ofCalls late) ∨ (ofCalls late).GrowsInto (ofCalls early) :=
  (List.prefix_or_prefix_of_prefix start begins).imp growsInto_of_prefix growsInto_of_prefix

theorem le_iff_subset (comparable : before.GrowsInto after ∨ after.GrowsInto before) :
    before.revision ≤ after.revision ↔ before.items ⊆ after.items := by
  rcases comparable with grows | grows
  · exact iff_of_true grows.revision fun candidate member => grows.kept candidate member
  · exact grows.le_iff_subset

theorem mem_shown {snapshot : CandidatePool} :
    snapshot ∈ pool.shown calls ↔
      ∃ before, before ++ [.snapshot] <+: calls ∧ snapshot = before.foldl perform pool := by
  induction calls generalizing pool with
  | nil => simp [shown]
  | cons call rest ih =>
    have later : snapshot ∈ (pool.perform call).shown rest ↔
        ∃ before, call :: before ++ [.snapshot] <+: call :: rest ∧
          snapshot = (call :: before).foldl perform pool := by
      simp [ih]
    cases call with
    | merge candidates =>
      refine later.trans ⟨fun ⟨before, start, same⟩ => ⟨_, start, same⟩, ?_⟩
      rintro ⟨_ | ⟨first, before⟩, start, same⟩
      · simp at start
      · obtain rfl : first = .merge candidates := by simpa using (List.cons_prefix_cons.1 start).1
        exact ⟨before, start, same⟩
    | snapshot =>
      rw [shown, List.mem_cons]
      constructor
      · rintro (rfl | inside)
        · exact ⟨[], by simp, rfl⟩
        · obtain ⟨before, start, same⟩ := later.1 inside
          exact ⟨_, start, same⟩
      · rintro ⟨_ | ⟨first, before⟩, start, same⟩
        · exact .inl same
        · obtain rfl : first = .snapshot := by simpa using (List.cons_prefix_cons.1 start).1
          exact .inr (later.2 ⟨before, start, same⟩)

/-- A pool holds all that was merged into it, each candidate once and in order, and its revision is
the number of merges that added something. Of two snapshots the one with the smaller revision holds
less, and snapshots of one revision hold the same. -/
theorem revision_identifies_content (calls : List Call) :
    Ordered.Increasing (ofCalls calls).items ∧
    (∀ candidate, candidate ∈ (ofCalls calls).items ↔ ∃ call ∈ calls, candidate ∈ call.brought) ∧
    (ofCalls calls).revision = additions calls ∧
    (∀ snapshot, snapshot ∈ empty.shown calls ↔
      ∃ before, before ++ [.snapshot] <+: calls ∧ snapshot = ofCalls before) ∧
    ∀ first ∈ empty.shown calls, ∀ second ∈ empty.shown calls,
      (first.revision = second.revision ↔ first.items = second.items) ∧
        (first.revision ≤ second.revision ↔ first.items ⊆ second.items) := by
  refine ⟨increasing_ofCalls calls, fun candidate => mem_ofCalls.trans List.mem_flatMap,
    revision_ofCalls calls, fun snapshot => mem_shown, ?_⟩
  intro first isFirst second isSecond
  obtain ⟨early, start, rfl⟩ := mem_shown.1 isFirst
  obtain ⟨late, begins, rfl⟩ := mem_shown.1 isSecond
  have comparable := growsInto_or_growsInto ((List.prefix_append early [.snapshot]).trans start)
    ((List.prefix_append late [.snapshot]).trans begins)
  have below := le_iff_subset comparable
  have above := le_iff_subset comparable.symm
  refine ⟨?_, below⟩
  rw [Nat.le_antisymm_iff]
  constructor
  · rintro ⟨smaller, larger⟩
    have inside := below.1 smaller
    have back := above.1 larger
    exact (increasing_ofCalls early).eq_of_mem_iff (increasing_ofCalls late)
      fun candidate => ⟨@inside candidate, @back candidate⟩
  · intro same
    have held : (ofCalls early).items = (ofCalls late).items := same
    exact ⟨below.2 (by simp [held]), above.2 (by simp [held])⟩

def readings : List Call :=
  [.merge ["p-4", "flex", "flex"], .snapshot, .merge ["flex"], .snapshot, .merge ["grid", "flex"],
    .snapshot]

theorem revision_identifies_content_of_readings :
    empty.shown readings =
        [⟨["flex", "p-4"], 1⟩, ⟨["flex", "p-4"], 1⟩, ⟨["flex", "grid", "p-4"], 2⟩] ∧
      (ofCalls readings).revision = 2 ∧ "grid" ∈ (ofCalls readings).items ∧
      ["flex", "p-4"] ⊆ ["flex", "grid", "p-4"] ∧ ¬ ["flex", "grid", "p-4"] ⊆ ["flex", "p-4"] := by
  have shown : empty.shown readings =
      [⟨["flex", "p-4"], 1⟩, ⟨["flex", "p-4"], 1⟩, ⟨["flex", "grid", "p-4"], 2⟩] := by decide +kernel
  obtain ⟨-, content, counted, -, compare⟩ := revision_identifies_content readings
  have early : (⟨["flex", "p-4"], 1⟩ : CandidatePool) ∈ empty.shown readings := by simp [shown]
  have late : (⟨["flex", "grid", "p-4"], 2⟩ : CandidatePool) ∈ empty.shown readings := by
    simp [shown]
  refine ⟨shown, counted.trans (by decide +kernel), ?_, ?_, ?_⟩
  · exact (content "grid").2 ⟨.merge ["grid", "flex"], by simp [readings], by simp [Call.brought]⟩
  · exact (compare _ early _ late).2.1 (by decide)
  · exact fun inside => absurd ((compare _ late _ early).2.2 inside) (by decide)

end UtilityCss.CandidatePool
