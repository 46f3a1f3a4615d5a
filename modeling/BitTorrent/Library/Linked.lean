import Mathlib.Data.List.Nodup
import Mathlib.Data.Set.Card

/-!
# Linked lists in memory

A heap maps references to cells, each with a value and the reference of the next cell, or none.
`Chain h p l` says that the cells from `p` on are those of `l`, in this order, and that the last
one has no next cell.  From a pointer there is at most one chain, which is why no cell occurs in
it twice, and its cells are those that can be reached.
-/

universe u v

namespace Linked

variable {ρ : Type u} {α : Type v}

structure Cell (ρ : Type u) (α : Type v) where
  data : α
  next : Option ρ

/-- The cells that are allocated. -/
abbrev Heap (ρ : Type u) (α : Type v) := ρ → Option (Cell ρ α)

/-- From `p` on the cells are those of `l`, with the values given there. -/
inductive Chain (h : Heap ρ α) : Option ρ → List (ρ × α) → Prop
  | nil : Chain h none []
  | cons {r : ρ} {x : α} {next : Option ρ} {l : List (ρ × α)} (hr : h r = some ⟨x, next⟩)
      (hl : Chain h next l) : Chain h (some r) ((r, x) :: l)

/-- A cell that is found from `p` on by following the references. -/
inductive Reachable (h : Heap ρ α) : Option ρ → ρ → Prop
  | here (r : ρ) : Reachable h (some r) r
  | next {r s : ρ} {c : Cell ρ α} (hr : h r = some c) (hs : Reachable h c.next s) :
      Reachable h (some r) s

namespace Chain

variable {h h' : Heap ρ α} {p : Option ρ} {l l' pre rest : List (ρ × α)} {r s : ρ} {x y : α}

theorem head_eq (hc : Chain h p l) : p = (l.map Prod.fst).head? := by
  cases hc with
  | nil => rfl
  | cons hr hl => rfl

theorem of_cons (hc : Chain h p ((r, x) :: rest)) :
    ∃ next, h r = some ⟨x, next⟩ ∧ Chain h next rest := by
  cases hc with
  | cons hr hl => exact ⟨_, hr, hl⟩

/-- What a chain looks like from one of its cells on. -/
theorem of_append (hc : Chain h p (pre ++ (r, x) :: rest)) :
    ∃ next, h r = some ⟨x, next⟩ ∧ Chain h next rest := by
  induction pre generalizing p with
  | nil => exact hc.of_cons
  | cons a pre ih =>
      cases hc with
      | cons hr hl => exact ih hl

theorem exists_of_mem (hc : Chain h p l) (hr : r ∈ l.map Prod.fst) : ∃ c, h r = some c := by
  obtain ⟨⟨s, x⟩, hmem, rfl⟩ := List.mem_map.mp hr
  obtain ⟨pre, rest, rfl⟩ := List.append_of_mem hmem
  obtain ⟨next, hcell, -⟩ := hc.of_append
  exact ⟨_, hcell⟩

/-- Where nothing is allocated the chain does not pass. -/
theorem ne_of_free (hc : Chain h p l) (hr : r ∈ l.map Prod.fst) (hs : h s = none) : r ≠ s := by
  rintro rfl
  obtain ⟨c, hcell⟩ := hc.exists_of_mem hr
  rw [hs] at hcell
  cases hcell

/-- The last cell has no next one. -/
theorem last (hc : Chain h p (pre ++ [(r, x)])) : h r = some ⟨x, none⟩ := by
  obtain ⟨next, hr, hnil⟩ := hc.of_append
  cases hnil
  exact hr

/-- A pointer and the heap determine the chain. -/
theorem unique (hc : Chain h p l) (hc' : Chain h p l') : l = l' := by
  induction hc generalizing l' with
  | nil =>
      cases hc'
      rfl
  | cons hr hl ih =>
      cases hc' with
      | cons hr' hl' =>
          cases hr.symm.trans hr'
          rw [ih hl']

/-- No cell occurs twice: the chain from there on would be longer than itself. -/
theorem nodup (hc : Chain h p l) : (l.map Prod.fst).Nodup := by
  induction hc with
  | nil => exact List.nodup_nil
  | cons hr hl ih =>
      rw [List.map_cons, List.nodup_cons]
      refine ⟨fun hmem ↦ ?_, ih⟩
      obtain ⟨⟨s, y⟩, hs, rfl⟩ := List.mem_map.mp hmem
      obtain ⟨pre, rest, rfl⟩ := List.append_of_mem hs
      obtain ⟨next, hcell, hrest⟩ := hl.of_append
      have hsame := (Chain.cons hr hl).unique (.cons hcell hrest)
      have hlen := congrArg List.length hsame
      simp only [List.length_cons, List.length_append] at hlen
      omega

/-- Other cells do not matter. -/
theorem congr (hc : Chain h p l) (heq : ∀ r ∈ l.map Prod.fst, h' r = h r) : Chain h' p l := by
  induction hc with
  | nil => exact .nil
  | cons hr hl ih =>
      rw [List.map_cons, List.forall_mem_cons] at heq
      exact .cons (heq.1.trans hr) (ih heq.2)

/-- A cell put behind the last one. -/
theorem concat (hc : Chain h p (l ++ [(r, x)])) (hlast : h' r = some ⟨x, some s⟩)
    (hnew : h' s = some ⟨y, none⟩) (heq : ∀ t ∈ l.map Prod.fst, h' t = h t) :
    Chain h' p (l ++ [(r, x)] ++ [(s, y)]) := by
  induction l generalizing p with
  | nil =>
      cases hc
      exact .cons hlast (.cons hnew .nil)
  | cons a l ih =>
      rw [List.map_cons, List.forall_mem_cons] at heq
      cases hc with
      | cons hr hl => exact .cons (heq.1.trans hr) (ih hl heq.2)

/-- A new cell is allocated and the last one changed to lead to it. -/
theorem link [DecidableEq ρ] (hc : Chain h p (l ++ [(r, x)])) (hs : h s = none) (y : α) :
    Chain (Function.update (Function.update h s (some ⟨y, none⟩)) r (some ⟨x, some s⟩)) p
      (l ++ [(r, x)] ++ [(s, y)]) := by
  have hfree : ∀ t ∈ (l ++ [(r, x)]).map Prod.fst, t ≠ s := fun t ht ↦ hc.ne_of_free ht hs
  have hnodup := hc.nodup
  rw [List.map_append, List.map_singleton] at hfree hnodup
  have hother : ∀ t ∈ l.map Prod.fst, t ≠ r := fun t ht ↦
    (List.nodup_append.mp hnodup).2.2 t ht r (List.mem_singleton_self r)
  have hrs : r ≠ s := hfree r (List.mem_append_right _ (List.mem_singleton_self r))
  refine hc.concat (Function.update_self ..) ?_ fun t ht ↦ ?_
  · rw [Function.update_of_ne hrs.symm, Function.update_self]
  · rw [Function.update_of_ne (hother t ht), Function.update_of_ne]
    exact hfree t (List.mem_append_left _ ht)

/-- The cells of a chain are those that can be reached. -/
theorem reachable_iff (hc : Chain h p l) : Reachable h p r ↔ r ∈ l.map Prod.fst := by
  induction hc with
  | nil =>
      constructor
      · intro hr
        cases hr
      · exact fun hr ↦ absurd hr List.not_mem_nil
  | cons hcell hl ih =>
      rw [List.map_cons, List.mem_cons, ← ih]
      constructor
      · intro hr
        cases hr with
        | here => exact .inl rfl
        | next hcell' hs =>
            cases hcell.symm.trans hcell'
            exact .inr hs
      · rintro (rfl | hr)
        · exact .here _
        · exact .next hcell hr

theorem setOf_reachable (hc : Chain h p l) [DecidableEq ρ] :
    {r | Reachable h p r} = ((l.map Prod.fst).toFinset : Set ρ) := by
  ext r
  rw [List.coe_toFinset]
  exact hc.reachable_iff

theorem finite_reachable (hc : Chain h p l) : {r | Reachable h p r}.Finite := by
  classical
  rw [hc.setOf_reachable]
  exact Finset.finite_toSet _

/-- There are as many as the chain is long. -/
theorem ncard_reachable (hc : Chain h p l) : {r | Reachable h p r}.ncard = l.length := by
  classical
  rw [hc.setOf_reachable, Set.ncard_coe_finset, List.toFinset_card_of_nodup hc.nodup,
    List.length_map]

end Chain

end Linked
