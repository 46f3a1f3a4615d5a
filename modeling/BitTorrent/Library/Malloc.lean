import Mathlib.Data.List.Basic
import Mathlib.Data.List.Nodup
import Mathlib.Data.List.ReduceOption

/-!
# What is handed to `free`

The objects of a program are those that `malloc` has given out, numbered in that order, and
others that are not its to free.  The state of the memory is how many have been given out, and a
log of what was handed to `free`.  No number is given out again: the log tells objects apart, not
addresses.
-/

namespace Malloc

variable {α : Type}

/-- An object of the program. -/
inductive Obj (α : Type) where
  | given (n : Nat)
  | other (x : α)

/-- How many objects `malloc` has given out, and what was handed to `free`, in that order. -/
structure Heap (α : Type) where
  next : Nat
  freed : List (Obj α)

namespace Heap

/-- Nothing has been given out. -/
def start : Heap α := { next := 0, freed := [] }

def malloc (h : Heap α) : Obj α × Heap α := (.given h.next, { h with next := h.next + 1 })

/-- `free`, which does nothing with `NULL`. -/
def free (h : Heap α) : Option (Obj α) → Heap α
  | none => h
  | some x => { h with freed := h.freed ++ [x] }

/-- The pointers of a list, freed one after another. -/
theorem foldl_free (h : Heap α) (ptrs : List (Option (Obj α))) :
    ptrs.foldl free h = { h with freed := h.freed ++ ptrs.reduceOption } := by
  induction ptrs generalizing h with
  | nil => simp
  | cons ptr ptrs ih =>
      rw [List.foldl_cons, ih]
      cases ptr with
      | none => rw [List.reduceOption_cons_of_none]; rfl
      | some x => rw [List.reduceOption_cons_of_some, free, List.append_assoc]; rfl

end Heap

/-! ## Fresh objects -/

section Fresh

variable {k m n : Nat} {objs objs' : List (Obj α)}

/-- The objects are different ones among those given out with the numbers from `m` up to `n`. -/
structure Fresh (m n : Nat) (objs : List (Obj α)) : Prop where
  le : m ≤ n
  nodup : objs.Nodup
  given : ∀ x ∈ objs, ∃ i, x = .given i ∧ m ≤ i ∧ i < n

namespace Fresh

theorem nil (h : m ≤ n) : Fresh m n ([] : List (Obj α)) where
  le := h
  nodup := List.nodup_nil
  given _ hx := absurd hx List.not_mem_nil

theorem malloc (h : Heap α) : Fresh h.next h.malloc.2.next [h.malloc.1] where
  le := Nat.le_succ _
  nodup := List.nodup_singleton _
  given _ hx := ⟨h.next, List.mem_singleton.mp hx, Nat.le_refl _, Nat.lt_succ_self _⟩

/-- What is given out later is different. -/
theorem append (h : Fresh k m objs) (h' : Fresh m n objs') : Fresh k n (objs ++ objs') where
  le := Nat.le_trans h.le h'.le
  nodup := by
    refine List.nodup_append.mpr ⟨h.nodup, h'.nodup, ?_⟩
    rintro x hx y hy rfl
    obtain ⟨i, rfl, -, hlt⟩ := h.given x hx
    obtain ⟨j, heq, hle, -⟩ := h'.given _ hy
    cases heq
    exact absurd hlt (Nat.not_lt_of_le hle)
  given x hx := by
    rcases List.mem_append.mp hx with hx | hx
    · obtain ⟨i, heq, hle, hlt⟩ := h.given x hx
      exact ⟨i, heq, hle, Nat.lt_of_lt_of_le hlt h'.le⟩
    · obtain ⟨i, heq, hle, hlt⟩ := h'.given x hx
      exact ⟨i, heq, Nat.le_trans h.le hle, hlt⟩

theorem perm (h : Fresh m n objs) (hperm : objs.Perm objs') : Fresh m n objs' where
  le := h.le
  nodup := hperm.nodup_iff.mp h.nodup
  given x hx := h.given x (hperm.mem_iff.mpr hx)

/-- Some of the objects, each at most once. -/
theorem of_subset (h : Fresh m n objs) (hnodup : objs'.Nodup) (hsub : objs' ⊆ objs) :
    Fresh m n objs' where
  le := h.le
  nodup := hnodup
  given x hx := h.given x (hsub hx)

theorem sublist (h : Fresh m n objs) (hsub : objs'.Sublist objs) : Fresh m n objs' :=
  h.of_subset (h.nodup.sublist hsub) hsub.subset

theorem other_notMem (h : Fresh m n objs) (x : α) : .other x ∉ objs := by
  intro hx
  obtain ⟨i, heq, -⟩ := h.given _ hx
  cases heq

end Fresh

end Fresh

/-! ## What a program may free -/

/-- No object has been freed twice, and only objects that `malloc` gave out. -/
structure FreedOnce (h : Heap α) : Prop where
  nodup : h.freed.Nodup
  own : ∀ x, .other x ∉ h.freed

end Malloc
