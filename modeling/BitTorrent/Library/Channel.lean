import Mathlib.Data.List.Basic

/-!
# First-in first-out channels

A channel is the list of what is in it, the newest item first: sending puts an item in
front, and what is received is the last one.  `Channel.window f lo hi` is the channel into
which `f lo`, …, `f (hi - 1)` were sent, in this order, and nothing was received yet.
-/

universe u v

namespace Channel

variable {α : Type u} {β : Type v} {f : ℕ → α} {lo hi n : ℕ}

/-- The oldest item, and the channel without it. -/
def receive (c : List α) : Option (α × List α) := c.getLast?.map fun a ↦ (a, c.dropLast)

@[simp] theorem receive_nil : receive ([] : List α) = none := rfl

@[simp] theorem receive_concat (c : List α) (a : α) : receive (c ++ [a]) = some (a, c) := by
  simp [receive]

/-- The items numbered from `lo` on, up to `hi` but without it. -/
def window (f : ℕ → α) (lo hi : ℕ) : List α := ((List.range' lo (hi - lo)).map f).reverse

@[simp] theorem window_self (f : ℕ → α) (n : ℕ) : window f n n = [] := by simp [window]

/-- Sending the next item. -/
theorem cons_window (f : ℕ → α) (h : lo ≤ hi) : f hi :: window f lo hi = window f lo (hi + 1) := by
  rw [window, window, Nat.succ_sub h, List.range'_1_concat, List.map_append, List.reverse_append,
    Nat.add_sub_cancel' h]
  rfl

/-- The oldest item comes last. -/
theorem window_eq_concat (f : ℕ → α) (h : lo < hi) :
    window f lo hi = window f (lo + 1) hi ++ [f lo] := by
  obtain ⟨k, rfl⟩ := Nat.exists_eq_add_of_lt h
  rw [window, window, Nat.add_right_comm, Nat.add_sub_cancel_left, Nat.add_assoc,
    Nat.add_sub_cancel_left, Nat.add_comm 1 k, List.range'_succ, List.map_cons, List.reverse_cons]

/-- Receiving it. -/
theorem receive_window (f : ℕ → α) (h : lo < hi) :
    receive (window f lo hi) = some (f lo, window f (lo + 1) hi) := by
  rw [window_eq_concat f h, receive_concat]

/-- The items in the order they were sent. -/
theorem reverse_window (f : ℕ → α) (lo hi : ℕ) :
    (window f lo hi).reverse = (List.range' lo (hi - lo)).map f := List.reverse_reverse _

end Channel
