import Mathlib.Data.List.Basic

/-! # Keeping the highest rows

A list is sorted by a total preorder and all but its last rows are dropped. Core Lean
says what a stable sort does with one more row in front, and that is enough to tell
where each row ends up.
-/

namespace Ranking

variable {α : Type} {le : α → α → Bool}

section Preorder

variable (trans : ∀ a b c, le a b = true → le b c = true → le a c = true)
  (total : ∀ a b, (le a b || le b a) = true)

include trans total

/-- No row that is dropped comes after one that is kept. -/
theorem dropped_le_kept {rows : List α} {n : Nat} {dropped kept : α}
    (low : dropped ∈ (rows.mergeSort le).take n) (high : kept ∈ (rows.mergeSort le).drop n) :
    le dropped kept = true := by
  have sorted := List.pairwise_mergeSort trans total rows
  rw [← List.take_append_drop n (rows.mergeSort le)] at sorted
  exact (List.pairwise_append.mp sorted).2.2 dropped low kept high

/-- Behind a row come the rows in front of it that it does not exceed, and those behind it
    that are not below it. -/
theorem sorted_around (before : List α) (row : α) (after : List α) :
    ∃ lower higher, (before ++ row :: after).mergeSort le = lower ++ row :: higher ∧
      higher.length = before.countP (fun other => !le other row) + after.countP (le row) := by
  induction before with
  | nil =>
      obtain ⟨lower, higher, split, rest, below⟩ := List.mergeSort_cons trans total row after
      refine ⟨lower, higher, split, ?_⟩
      have sorted := List.pairwise_mergeSort trans total (row :: after)
      rw [split] at sorted
      have above := (List.pairwise_cons.mp (List.pairwise_append.mp sorted).2.1).1
      have none : lower.countP (le row) = 0 := List.countP_eq_zero.mpr fun other member => by
        simpa using below other member
      have all : higher.countP (le row) = higher.length := List.countP_eq_length.mpr above
      have count := (List.mergeSort_perm after le).countP_eq (le row)
      rw [rest, List.countP_append, none, all] at count
      simp only [List.countP_nil, Nat.zero_add] at count ⊢
      exact count
  | cons first before ih =>
      obtain ⟨lower, higher, sortedRest, count⟩ := ih
      obtain ⟨left, right, split, rest, below⟩ :=
        List.mergeSort_cons trans total first (before ++ row :: after)
      have sorted := List.pairwise_mergeSort trans total (first :: (before ++ row :: after))
      rw [split] at sorted
      have above := (List.pairwise_cons.mp (List.pairwise_append.mp sorted).2.1).1
      rw [sortedRest] at rest
      -- Where the new row does not exceed the given one it goes in front of it, else behind it.
      have front (middle : List α) (lowerIs : lower = left ++ middle)
          (rightIs : right = middle ++ row :: higher) :
          ∃ lower higher, (first :: before ++ row :: after).mergeSort le = lower ++ row :: higher ∧
            higher.length = (first :: before).countP (fun other => !le other row) +
              after.countP (le row) := by
        have small : le first row = true := above row (by simp [rightIs])
        refine ⟨left ++ first :: middle, higher, ?_, ?_⟩
        · rw [List.cons_append, split, rightIs]
          simp
        · rw [List.countP_cons_of_neg (by simp [small])]
          exact count
      rcases List.append_eq_append_iff.mp rest with ⟨middle, leftIs, rightIs⟩ |
        ⟨middle, lowerIs, rightIs⟩
      · cases middle with
        | nil => exact front [] (by simpa using leftIs.symm) (by simpa using rightIs.symm)
        | cons same middle =>
            obtain ⟨rfl, higherIs⟩ := List.cons.inj rightIs
            have large : (!le first row) = true := below row (by simp [leftIs])
            refine ⟨lower, middle ++ first :: right, ?_, ?_⟩
            · rw [List.cons_append, split, leftIs]
              simp
            · have size : higher.length = (middle ++ right).length := congrArg List.length higherIs
              simp only [List.length_append, List.length_cons, List.countP_cons, large,
                if_true] at size ⊢
              omega
      · exact front middle lowerIs rightIs

/-- A row that occurs once is among the last `n` unless `n` rows end up behind it. -/
theorem mem_drop_iff {before after : List α} {row : α} {n : Nat}
    (once : (before ++ row :: after).Nodup) :
    row ∈ ((before ++ row :: after).mergeSort le).drop ((before ++ row :: after).length - n) ↔
      before.countP (fun other => !le other row) + after.countP (le row) < n := by
  obtain ⟨lower, higher, split, count⟩ := sorted_around trans total before row after
  have perm := List.mergeSort_perm (before ++ row :: after) le
  have apart := perm.nodup_iff.mpr once
  have size := perm.length_eq
  rw [split] at apart size
  have absent : row ∉ higher := (List.nodup_cons.mp (List.nodup_append.mp apart).2.1).1
  rw [List.length_append, List.length_cons] at size
  rw [← count, split, ← size, List.drop_append]
  by_cases few : higher.length < n
  · have inFront : lower.length + (higher.length + 1) - n - lower.length = 0 := by omega
    rw [inFront]
    exact iff_of_true (List.mem_append_right _ (List.mem_cons_self ..)) few
  · have behind : lower.length + (higher.length + 1) - n - lower.length =
        lower.length + (higher.length + 1) - n - lower.length - 1 + 1 := by omega
    rw [behind, List.drop_succ_cons, List.drop_of_length_le (by omega), List.nil_append]
    exact iff_of_false (fun member => absent (List.mem_of_mem_drop member)) few

end Preorder

end Ranking
