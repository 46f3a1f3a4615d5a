import Mathlib.Order.Bounds.Basic
import Mathlib.Data.List.Range

/-!
# Counting up inside a sequence

A reader that waits for 1, then 2, then 3, and lets everything else pass, gets as
far as the longest of the lists `1, 2, …, k` that is a subsequence of what it
reads.
-/

namespace Counting

variable {l : List ℕ} {x k : ℕ}

/-- How far a reader counts that waits for one number after the other. -/
def count (l : List ℕ) : ℕ := l.foldl (fun c x ↦ if x = c + 1 then c + 1 else c) 0

@[simp] theorem count_nil : count [] = 0 := rfl

theorem count_concat : count (l ++ [x]) = if x = count l + 1 then count l + 1 else count l := by
  rw [count, List.foldl_append]
  rfl

/-- Reading the numbers in order counts them all. -/
theorem count_range (n : ℕ) : count ((List.range n).map (· + 1)) = n := by
  induction n with
  | zero => rfl
  | succ n ih => rw [List.range_succ, List.map_append, List.map_singleton, count_concat, ih, if_pos rfl]

/-- Reading on never counts back. -/
theorem count_le_concat (l : List ℕ) (x : ℕ) : count l ≤ count (l ++ [x]) := by
  rw [count_concat]
  split
  · exact Nat.le_succ _
  · exact Nat.le_refl _

/-- A subsequence of a sequence with one more entry uses that entry, or not. -/
theorem range'_sublist_concat (h : (List.range' 1 (k + 1)).Sublist (l ++ [x])) :
    (List.range' 1 (k + 1)).Sublist l ∨ (List.range' 1 k).Sublist l ∧ x = k + 1 := by
  obtain ⟨l₁, l₂, heq, h₁, h₂⟩ := List.sublist_append_iff.mp h
  rcases List.sublist_singleton.mp h₂ with rfl | rfl
  · rw [List.append_nil] at heq
    exact .inl (heq ▸ h₁)
  · rw [List.range'_1_concat] at heq
    obtain ⟨rfl, hx⟩ := List.append_inj' heq rfl
    refine .inr ⟨h₁, ?_⟩
    rw [List.cons.injEq] at hx
    rw [← hx.1, Nat.add_comm]

/-- The count is the length of the longest prefix of `1, 2, 3, …` in the sequence. -/
theorem isGreatest_count (l : List ℕ) : IsGreatest {k | (List.range' 1 k).Sublist l} (count l) := by
  induction l using List.reverseRecOn with
  | nil =>
      refine ⟨List.nil_sublist _, ?_⟩
      intro k hk
      have hlen := (show (List.range' 1 k).Sublist [] from hk).length_le
      rw [List.length_range'] at hlen
      exact hlen
  | append_singleton l x ih =>
      constructor
      · show (List.range' 1 (count (l ++ [x]))).Sublist (l ++ [x])
        rw [count_concat]
        split
        · next hx =>
            rw [List.range'_1_concat, Nat.add_comm 1, ← hx]
            exact ih.1.append (List.Sublist.refl _)
        · exact ih.1.trans (List.sublist_append_left _ _)
      · rintro (_ | k) hk
        · exact Nat.zero_le _
        · rcases range'_sublist_concat hk with hl | ⟨hl, rfl⟩
          · exact (ih.2 hl).trans (count_le_concat l x)
          · rw [count_concat]
            have hle : k ≤ count l := ih.2 hl
            split
            · exact Nat.succ_le_succ hle
            · next hne => exact Nat.lt_of_le_of_ne hle fun h ↦ hne (h ▸ rfl)

end Counting
