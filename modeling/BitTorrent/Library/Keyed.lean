import Mathlib.Data.List.Basic
import Mathlib.Data.List.Nodup
import Mathlib.Data.List.Perm.Basic

/-!
# Lists searched by a key

A list whose entries are found by a key, where the first entry with the key
counts.  With distinct keys the order of the list is irrelevant; replacing the
first entry with a key, and dropping it while the entries before it move to the
end, act on the found entries as they would on a finite map.
-/

universe u v

namespace Keyed

variable {α : Type u} {κ : Type v} [DecidableEq κ] {key : α → κ} {l l' : List α} {k : κ} {x y : α}

/-- The first entry with key `k`. -/
def find (key : α → κ) (l : List α) (k : κ) : Option α := l.find? fun x ↦ decide (key x = k)

@[simp] theorem find_nil : find key [] k = none := rfl

theorem find_cons : find key (x :: l) k = if key x = k then some x else find key l k := by
  rw [find, List.find?_cons]
  by_cases h : key x = k
  · simp [h]
  · rw [decide_eq_false h, if_neg h]
    rfl

theorem find_eq_none_iff : find key l k = none ↔ ∀ x ∈ l, key x ≠ k := by
  rw [find, List.find?_eq_none]
  simp

theorem mem_of_find (h : find key l k = some x) : x ∈ l ∧ key x = k :=
  ⟨List.mem_of_find?_eq_some h, by simpa using List.find?_some h⟩

/-- With distinct keys an entry is found by its key. -/
theorem find_eq_some_iff (hl : (l.map key).Nodup) : find key l k = some x ↔ x ∈ l ∧ key x = k := by
  refine ⟨mem_of_find, ?_⟩
  rintro ⟨hx, rfl⟩
  induction l with
  | nil => cases hx
  | cons y l ih =>
      rw [List.map_cons, List.nodup_cons] at hl
      rw [find_cons]
      rcases List.mem_cons.mp hx with rfl | hx
      · exact if_pos rfl
      · have hne : key y ≠ key x := by
          intro h
          apply hl.1
          rw [h]
          exact List.mem_map_of_mem hx
        rw [if_neg hne]
        exact ih hl.2 hx

/-- With distinct keys the order does not matter. -/
theorem find_perm (h : l.Perm l') (hl : (l.map key).Nodup) : find key l k = find key l' k := by
  have hl' : (l'.map key).Nodup := ((h.map key).nodup_iff).mp hl
  ext x
  rw [find_eq_some_iff hl, find_eq_some_iff hl', h.mem_iff]

/-- An entry added at the end is found if no other has its key. -/
theorem find_concat :
    find key (l ++ [x]) k = (find key l k).or (if key x = k then some x else none) := by
  rw [find, List.find?_append, find, List.find?_singleton]
  congr 1
  by_cases h : key x = k <;> simp [h]

/-! ## Lists with at most one match -/

section Match

variable {f g : α → Bool}

/-- At most one entry of the list matches. -/
def AtMostOne (f : α → Bool) (l : List α) : Prop := l.Pairwise fun x y ↦ f x = true → f y = true → False

theorem AtMostOne.perm (hl : AtMostOne f l) (h : l.Perm l') : AtMostOne f l' :=
  (h.pairwise_iff fun hxy hy hx ↦ hxy hx hy).mp hl

theorem AtMostOne.sublist (hl : AtMostOne f l) (h : l'.Sublist l) : AtMostOne f l' :=
  List.Pairwise.sublist h hl

/-- The entry that matches, if there is only one. -/
theorem AtMostOne.find?_eq_some_iff (hl : AtMostOne f l) :
    l.find? f = some x ↔ x ∈ l ∧ f x = true := by
  refine ⟨fun h ↦ ⟨List.mem_of_find?_eq_some h, List.find?_some h⟩, ?_⟩
  rintro ⟨hx, hfx⟩
  induction l with
  | nil => cases hx
  | cons y l ih =>
      obtain ⟨hy, hrest⟩ := List.pairwise_cons.mp hl
      rcases List.mem_cons.mp hx with rfl | hmem
      · exact List.find?_cons_of_pos hfx
      · rw [List.find?_cons_of_neg fun hfy ↦ hy x hmem hfy hfx]
        exact ih hrest hmem

/-- The search does not depend on the order. -/
theorem AtMostOne.find?_perm (hl : AtMostOne f l) (h : l.Perm l') : l.find? f = l'.find? f := by
  ext x
  rw [hl.find?_eq_some_iff, (hl.perm h).find?_eq_some_iff, h.mem_iff]

/-- Dropping an entry that does not match leaves the search alone. -/
theorem find?_eraseP_of_disjoint (h : ∀ x ∈ l, f x = true → g x = false) :
    (l.eraseP f).find? g = l.find? g := by
  induction l with
  | nil => rfl
  | cons x l ih =>
      by_cases hx : f x = true
      · have hg : ¬ g x = true := by
          rw [h x (List.mem_cons_self ..) hx]
          exact Bool.false_ne_true
        rw [List.eraseP_cons_of_pos hx, List.find?_cons_of_neg hg]
      · rw [List.eraseP_cons_of_neg hx, List.find?_cons, List.find?_cons,
          ih fun y hy ↦ h y (List.mem_cons_of_mem _ hy)]

/-- Dropping an entry that is filtered out anyway. -/
theorem filter_eraseP_of_disjoint (h : ∀ x ∈ l, f x = true → g x = false) :
    (l.eraseP f).filter g = l.filter g := by
  induction l with
  | nil => rfl
  | cons x l ih =>
      by_cases hx : f x = true
      · have hg : ¬ g x = true := by
          rw [h x (List.mem_cons_self ..) hx]
          exact Bool.false_ne_true
        rw [List.eraseP_cons_of_pos hx, List.filter_cons_of_neg hg]
      · rw [List.eraseP_cons_of_neg hx, List.filter_cons, List.filter_cons,
          ih fun y hy ↦ h y (List.mem_cons_of_mem _ hy)]

/-- Two lists with the same entries of two kinds, when every entry is of one of them. -/
theorem perm_of_filter [DecidableEq α] (hf : (l.filter f).Perm (l'.filter f))
    (hg : (l.filter g).Perm (l'.filter g)) (h : ∀ x, f x = true ∨ g x = true) : l.Perm l' := by
  rw [List.perm_iff_count]
  intro x
  rcases h x with hx | hx
  · have := hf.count_eq x
    rwa [List.count_filter hx, List.count_filter hx] at this
  · have := hg.count_eq x
    rwa [List.count_filter hx, List.count_filter hx] at this

end Match

/-! ## Replacing -/

/-- Put `y` in the place of the first entry with its key. -/
def replace (key : α → κ) (y : α) (l : List α) : List α :=
  l.replaceF fun x ↦ if key x == key y then some y else none

theorem replace_cons :
    replace key y (x :: l) = if key x = key y then y :: l else x :: replace key y l := by
  rw [replace, List.replaceF]
  by_cases h : key x = key y
  · simp [h]
  · simp [h, replace]

/-- Putting an entry in its own place. -/
theorem replace_of_find (h : find key l (key y) = some y) : replace key y l = l := by
  induction l with
  | nil => rfl
  | cons x l ih =>
      rw [find_cons] at h
      rw [replace_cons]
      split at h
      · next hx =>
          cases h
          rw [if_pos hx]
      · next hx => rw [if_neg hx, ih h]

/-- Replacing keeps the keys. -/
theorem map_replace (key : α → κ) (y : α) (l : List α) : (replace key y l).map key = l.map key := by
  induction l with
  | nil => rfl
  | cons x l ih =>
      rw [replace_cons]
      split
      · next h => rw [List.map_cons, List.map_cons, h]
      · rw [List.map_cons, List.map_cons, ih]

/-- After replacing, the key of the new entry finds it, and the others what they
found before. -/
theorem find_replace (y : α) (l : List α) (k : κ) :
    find key (replace key y l) k =
      if key y = k then (find key l k).map fun _ ↦ y else find key l k := by
  induction l with
  | nil => simp [replace]
  | cons x l ih =>
      rw [replace_cons, find_cons]
      by_cases hxy : key x = key y
      · rw [if_pos hxy, find_cons, hxy]
        by_cases hk : key y = k
        · rw [if_pos hk, if_pos hk, if_pos hk]
          rfl
        · rw [if_neg hk, if_neg hk, if_neg hk]
      · rw [if_neg hxy, find_cons, ih]
        by_cases hk : key x = k
        · have hne : key y ≠ k := fun h ↦ hxy (hk.trans h.symm)
          rw [if_pos hk, if_pos hk, if_neg hne]
        · rw [if_neg hk, if_neg hk]

/-! ## Dropping -/

/-- Dropping one entry while the ones before it move to the end. -/
theorem find_rotate_drop {pre post : List α} (hl : ((pre ++ x :: post).map key).Nodup) (k : κ) :
    find key (post ++ pre) k = if key x = k then none else find key (pre ++ x :: post) k := by
  have hperm : (pre ++ x :: post).Perm (x :: (post ++ pre)) :=
    List.perm_middle.trans ((List.perm_append_comm).cons x)
  have hl' : ((x :: (post ++ pre)).map key).Nodup := ((hperm.map key).nodup_iff).mp hl
  rw [find_perm hperm hl, find_cons]
  by_cases hk : key x = k
  · rw [if_pos hk, find_eq_none_iff]
    intro y hy hyk
    rw [List.map_cons, List.nodup_cons] at hl'
    apply hl'.1
    rw [hk, ← hyk]
    exact List.mem_map_of_mem hy
  · rw [if_neg hk, if_neg hk]

/-! ## Looking up many keys -/

omit [DecidableEq κ] in
/-- Where different keys find different things, nothing is found twice exactly if no key that
finds something is looked up twice. -/
theorem nodup_filterMap_iff {β : Type u} {f : κ → Option β}
    (hinj : ∀ k k' o, f k = some o → f k' = some o → k = k') {keys : List κ} :
    (keys.filterMap f).Nodup ↔ (keys.filter fun k ↦ (f k).isSome).Nodup := by
  induction keys with
  | nil => exact iff_of_true List.nodup_nil List.nodup_nil
  | cons k keys ih =>
      cases hk : f k with
      | none => rw [List.filterMap_cons_none hk, List.filter_cons_of_neg (by simp [hk]), ih]
      | some o =>
          rw [List.filterMap_cons_some hk, List.filter_cons_of_pos (by simp [hk]), List.nodup_cons,
            List.nodup_cons, ih]
          refine and_congr_left fun _ ↦ not_congr ?_
          rw [List.mem_filterMap, List.mem_filter]
          constructor
          · rintro ⟨k', hmem, hk'⟩
            rw [hinj k k' o hk hk']
            exact ⟨hmem, by rw [hk']; rfl⟩
          · rintro ⟨hmem, -⟩
            exact ⟨k, hmem, hk⟩

/-! ## Selections -/

end Keyed
