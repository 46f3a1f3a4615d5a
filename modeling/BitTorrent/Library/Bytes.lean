import Mathlib.Data.List.Basic
import Mathlib.Data.List.Induction

/-!
# Copying into a fixed buffer

`copyInto buf off src` is a bounds-checked `memcpy`: it writes `src` over `buf`
from index `off` on, and has no value when the range does not fit.  `blend n a b`
is the list that agrees with `a` on its first `n` entries and with `b` from
there on, which is what a buffer holds while it is filled front to back.
-/

universe u v

namespace Bytes

variable {α : Type u} {β : Type v} {a b buf src : List α} {m n off : Nat}

/-- Write `src` over `buf` from index `off`, if the range lies inside `buf`. -/
def copyInto (buf : List α) (off : Nat) (src : List α) : Option (List α) :=
  if off + src.length ≤ buf.length then
    some (buf.take off ++ src ++ buf.drop (off + src.length))
  else none

/-- The `n` entries of `src` from index `off`, if they all exist. -/
def slice (src : List α) (off n : Nat) : Option (List α) :=
  if off + n ≤ src.length then some ((src.drop off).take n) else none

theorem copyInto_of_le (h : off + src.length ≤ buf.length) :
    copyInto buf off src = some (buf.take off ++ src ++ buf.drop (off + src.length)) :=
  if_pos h

/-- A copy behind a part of the buffer that is already written. -/
theorem copyInto_append (pre : List α) :
    copyInto (pre ++ buf) pre.length src =
      if src.length ≤ buf.length then some (pre ++ (src ++ buf.drop src.length)) else none := by
  rw [copyInto, List.length_append, List.take_left, List.append_assoc, List.drop_append,
    List.drop_of_length_le (Nat.le_add_right ..), Nat.add_sub_cancel_left, List.nil_append]
  simp only [Nat.add_le_add_iff_left]

/-- Every entry after a copy is the one before, or the one copied to its place. -/
theorem getElem?_copyInto {r : List α} (h : copyInto buf off src = some r) (j : Nat) :
    r[j]? = buf[j]? ∨ off ≤ j ∧ j < off + src.length ∧ r[j]? = src[j - off]? := by
  unfold copyInto at h
  split at h
  · next hle =>
    cases h
    have hoff : (buf.take off).length = off := List.length_take_of_le (Nat.le_of_add_right_le hle)
    have hmid : (buf.take off ++ src).length = off + src.length := by rw [List.length_append, hoff]
    rcases Nat.lt_or_ge j off with hlt | hge
    · refine .inl ?_
      rw [List.append_assoc, List.getElem?_append_left (by rwa [hoff]), List.getElem?_take_of_lt hlt]
    · rcases Nat.lt_or_ge j (off + src.length) with hlt | hge'
      · refine .inr ⟨hge, hlt, ?_⟩
        rw [List.getElem?_append_left (by rwa [hmid]),
          List.getElem?_append_right (by rwa [hoff]), hoff]
      · refine .inl ?_
        rw [List.getElem?_append_right (by rwa [hmid]), hmid, List.getElem?_drop,
          Nat.add_sub_cancel' hge']
  · cases h

theorem slice_of_le (h : off + n ≤ src.length) : slice src off n = some ((src.drop off).take n) :=
  if_pos h

theorem isSome_slice : (slice src off n).isSome = true ↔ off + n ≤ src.length := by
  rw [slice]
  split
  · next hle => exact ⟨fun _ ↦ hle, fun _ ↦ rfl⟩
  · next hle => exact ⟨fun h ↦ Bool.noConfusion h, fun h ↦ absurd h hle⟩

theorem length_of_slice {r : List α} (h : slice src off n = some r) : r.length = n := by
  rw [slice, Option.ite_none_right_eq_some, Option.some.injEq] at h
  obtain ⟨hle, rfl⟩ := h
  rw [List.length_take, List.length_drop]
  exact Nat.min_eq_left (Nat.le_sub_of_add_le' hle)

/-- What is read stays the same if more stands behind it. -/
theorem slice_append (h : slice src off n = some r) (rest : List α) :
    slice (src ++ rest) off n = some r := by
  rw [slice, Option.ite_none_right_eq_some, Option.some.injEq] at h
  obtain ⟨hle, rfl⟩ := h
  have hoff : off ≤ src.length := Nat.le_of_add_right_le hle
  rw [slice_of_le (by rw [List.length_append]; omega), List.drop_append_of_le_length hoff,
    List.take_append_of_le_length (by rw [List.length_drop]; omega)]

/-! ## Fixed-size records in a buffer -/

/-- The `i`-th record of a run of records of the same size. -/
theorem slice_flatMap {f : β → List α} {l : List β} {size : Nat}
    (hf : ∀ x ∈ l, (f x).length = size) (pre post : List α) {i : Nat} (hi : i < l.length) :
    slice (pre ++ l.flatMap f ++ post) (pre.length + i * size) size = some (f l[i]) := by
  induction l generalizing pre i with
  | nil => cases hi
  | cons x l ih =>
      have hx : (f x).length = size := hf x (List.mem_cons_self ..)
      cases i with
      | zero =>
          have hle : pre.length + 0 * size + size ≤ (pre ++ (x :: l).flatMap f ++ post).length := by
            simp only [List.flatMap_cons, List.length_append]
            omega
          rw [slice_of_le hle, Nat.zero_mul, Nat.add_zero, List.append_assoc, List.drop_left,
            List.flatMap_cons, List.append_assoc, List.take_append_of_le_length (by omega),
            ← hx, List.take_length]
          rfl
      | succ i =>
          have hi' : i < l.length := Nat.lt_of_succ_lt_succ hi
          have h := ih (fun y hy ↦ hf y (List.mem_cons_of_mem _ hy)) (pre ++ f x) hi'
          rw [List.length_append, hx] at h
          rw [List.flatMap_cons, ← List.append_assoc, List.getElem_cons_succ, ← h]
          congr 1
          rw [Nat.succ_mul]
          omega

/-- Reading the entries of a list one index at a time. -/
theorem mapM_range {g : Nat → Option β} {l : List β} (hn : l.length = n)
    (hg : ∀ i (h : i < l.length), g i = some l[i]) : (List.range n).mapM g = some l := by
  subst hn
  induction l using List.reverseRecOn with
  | nil => rfl
  | append_singleton l x ih =>
      have hl : (List.range l.length).mapM g = some l := ih fun i h ↦ by
        rw [hg i (by rw [List.length_append]; omega), List.getElem_append_left h]
      have hx : g l.length = some x := by
        rw [hg l.length (by simp), List.getElem_append_right (Nat.le_refl _)]
        simp
      rw [List.length_append, List.length_singleton, List.range_succ, List.mapM_append, hl]
      simp [hx]

/-- A list is read through exactly if each of its entries is. -/
theorem isSome_mapM {f : α → Option β} {l : List α} :
    (l.mapM f).isSome = true ↔ ∀ x ∈ l, (f x).isSome = true := by
  induction l with
  | nil => exact ⟨fun _ x hx ↦ absurd hx List.not_mem_nil, fun _ ↦ rfl⟩
  | cons x l ih =>
      rw [List.mapM_cons, List.forall_mem_cons, ← ih]
      cases f x with
      | none => exact ⟨fun h ↦ Bool.noConfusion h, fun h ↦ Bool.noConfusion h.1⟩
      | some y =>
          cases l.mapM f with
          | none => exact ⟨fun h ↦ Bool.noConfusion h, fun h ↦ Bool.noConfusion h.2⟩
          | some ys => exact ⟨fun _ ↦ ⟨rfl, rfl⟩, fun _ ↦ rfl⟩

/-- A list is read through in the same way if each of its entries is. -/
theorem mapM_of_imp {f g : α → Option β} {l : List α} {ys : List β}
    (hfg : ∀ x y, f x = some y → g x = some y) (h : l.mapM f = some ys) : l.mapM g = some ys := by
  induction l generalizing ys with
  | nil => exact h
  | cons x l ih =>
      rw [List.mapM_cons] at h ⊢
      obtain ⟨y, hy, h⟩ := Option.bind_eq_some_iff.mp h
      obtain ⟨ys', hys, h⟩ := Option.bind_eq_some_iff.mp h
      rw [hfg x y hy, ih hys]
      exact h

/-- Every entry read comes from one of the list. -/
theorem exists_of_mem_mapM {f : α → Option β} {l : List α} {r : List β} (h : l.mapM f = some r)
    {y : β} (hy : y ∈ r) : ∃ x ∈ l, f x = some y := by
  induction l generalizing r with
  | nil =>
      cases h
      cases hy
  | cons x l ih =>
      rw [List.mapM_cons] at h
      obtain ⟨z, hz, h⟩ := Option.bind_eq_some_iff.mp h
      obtain ⟨zs, hzs, h⟩ := Option.bind_eq_some_iff.mp h
      cases h
      rcases List.mem_cons.mp hy with rfl | hy
      · exact ⟨x, List.mem_cons_self .., hz⟩
      · obtain ⟨x', hx', hf⟩ := ih hzs hy
        exact ⟨x', List.mem_cons_of_mem _ hx', hf⟩

/-- A run of records can be read exactly if there is none or the last one lies inside. -/
theorem isSome_mapM_slice {f : List α → β} {size : Nat} :
    ((List.range n).mapM fun i ↦ (slice src (off + i * size) size).map f).isSome = true ↔
      n = 0 ∨ off + n * size ≤ src.length := by
  rw [isSome_mapM]
  constructor
  · intro h
    cases n with
    | zero => exact .inl rfl
    | succ n =>
        have hlast := h n (List.mem_range.mpr (Nat.lt_succ_self n))
        rw [Option.isSome_map, isSome_slice] at hlast
        rw [Nat.succ_mul, ← Nat.add_assoc]
        exact .inr hlast
  · rintro (rfl | hle) i hi
    · exact absurd hi List.not_mem_nil
    · have hmul : (i + 1) * size ≤ n * size :=
        Nat.mul_le_mul_right size (List.mem_range.mp hi)
      rw [Nat.succ_mul] at hmul
      rw [Option.isSome_map, isSome_slice, Nat.add_assoc]
      exact Nat.le_trans (Nat.add_le_add_left hmul off) hle

/-! ## Buffers filled front to back -/

/-- The first `n` entries of `a` followed by `b` from index `n`. -/
def blend (n : Nat) (a b : List α) : List α := a.take n ++ b.drop n

@[simp] theorem blend_zero : blend 0 a b = b := by simp [blend]

@[simp] theorem blend_self : blend n a a = a := List.take_append_drop n a

theorem blend_of_length_le (ha : a.length ≤ n) (hb : b.length ≤ n) : blend n a b = a := by
  rw [blend, List.take_of_length_le ha, List.drop_of_length_le hb, List.append_nil]

theorem length_blend (h : a.length = b.length) : (blend n a b).length = b.length := by
  simp only [blend, List.length_append, List.length_take, List.length_drop]
  omega

theorem take_blend_of_le (h : m ≤ n) (ha : n ≤ a.length) : (blend n a b).take m = a.take m := by
  rw [blend, List.take_append_of_le_length (by rw [List.length_take_of_le ha]; exact h),
    List.take_take, Nat.min_eq_left h]

theorem take_blend : (blend n a b).take (min n a.length) = a.take (min n a.length) := by
  rw [blend, List.take_left' (List.length_take ..)]
  exact List.take_eq_take_min

theorem drop_blend (h : a.length = b.length) :
    (blend n a b).drop (min n a.length) = b.drop (min n a.length) := by
  rw [blend, List.drop_left' (List.length_take ..), h]
  exact List.drop_eq_drop_min

/-- Copying the next `m` entries of `a` into a blend moves its border by `m`. -/
theorem copyInto_blend (hlen : a.length = b.length) (h : n + m ≤ a.length) :
    copyInto (blend n a b) n ((a.drop n).take m) = some (blend (n + m) a b) := by
  have hsrc : ((a.drop n).take m).length = m := by
    rw [List.length_take, List.length_drop]
    omega
  have hfit : n + ((a.drop n).take m).length ≤ (blend n a b).length := by
    rw [hsrc, length_blend hlen]
    omega
  rw [copyInto_of_le hfit, hsrc]
  congr 1
  have hn : (a.take n).length = n := by
    rw [List.length_take]
    omega
  have htake : (blend n a b).take n = a.take n := by
    rw [blend, List.take_append_of_le_length (by omega), List.take_of_length_le (by omega)]
  have hdrop : (blend n a b).drop (n + m) = b.drop (n + m) := by
    rw [blend, List.drop_append, List.drop_of_length_le (by omega), List.nil_append, hn,
      List.drop_drop]
    congr 1
    omega
  rw [htake, hdrop, ← List.take_add, blend]

/-- A blend equals its first list exactly when the rest of the second does. -/
theorem blend_eq_left_iff : blend n a b = a ↔ b.drop n = a.drop n := by
  constructor
  · intro h
    have hd := congrArg (List.drop (a.take n).length) h
    rw [blend, List.drop_left] at hd
    rw [hd, List.length_take]
    rcases Nat.le_total n a.length with hle | hle
    · rw [Nat.min_eq_left hle]
    · rw [Nat.min_eq_right hle, List.drop_of_length_le hle, List.drop_of_length_le (Nat.le_refl _)]
  · intro h
    rw [blend, h, List.take_append_drop]

end Bytes
