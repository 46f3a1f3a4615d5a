import Mathlib.Combinatorics.SimpleGraph.Metric

/-!
# Shortest paths by visiting a nearest vertex

Dijkstra's search with unit weights.  The vertices carry labels; `Labels.relax` looks
at one edge and `Labels.visit` at all edges of a vertex.  Which vertex is visited next
is left open: the invariant `Search` is kept as long as it is a nearest one among those
not visited yet.  When all are, the labels hold the distances of the graph, and going
back along the predecessors leads to the first vertex of a shortest path.
-/

universe u

namespace ShortestPath

variable {V : Type u}

/-- What the search knows of the vertices. -/
structure Labels (V : Type u) where
  done : V → Bool
  distance : V → ℕ
  predecessor : V → Option V

namespace Labels

variable [DecidableEq V]

/-- The edge from `next` to `v` is looked at. -/
def relax (next : V) (l : Labels V) (v : V) : Labels V :=
  if l.distance next + 1 < l.distance v then
    { l with
      distance := Function.update l.distance v (l.distance next + 1)
      predecessor := Function.update l.predecessor v (some next) }
  else l

/-- The edges from `next` to `vs` are looked at, and then `next` is done. -/
def visit (l : Labels V) (next : V) (vs : List V) : Labels V :=
  let l := vs.foldl (relax next) l
  { l with done := Function.update l.done next true }

/-- The vertex behind `s` on the way from `s` to `v`, going back from `v` at most `n`
times. -/
def firstHop (predecessor : V → Option V) (s : V) : ℕ → V → Option V
  | 0, _ => none
  | n + 1, v =>
      match predecessor v with
      | none => none
      | some p => if p = s then some v else firstHop predecessor s n p

@[simp] theorem done_relax (next : V) (l : Labels V) (v : V) : (relax next l v).done = l.done := by
  rw [relax]
  split <;> rfl

@[simp] theorem done_foldl_relax (next : V) (l : Labels V) (vs : List V) :
    (vs.foldl (relax next) l).done = l.done := by
  induction vs generalizing l with
  | nil => rfl
  | cons v vs ih => rw [List.foldl_cons, ih, done_relax]

theorem done_visit (l : Labels V) (next : V) (vs : List V) :
    (l.visit next vs).done = Function.update l.done next true := by
  rw [← done_foldl_relax next l vs]
  rfl

/-- An edge changes nothing at any vertex but the one it leads to. -/
theorem relax_of_ne (next : V) {v w : V} (l : Labels V) (h : w ≠ v) :
    (relax next l v).distance w = l.distance w ∧
      (relax next l v).predecessor w = l.predecessor w := by
  rw [relax]
  split
  · exact ⟨Function.update_of_ne h .., Function.update_of_ne h ..⟩
  · exact ⟨rfl, rfl⟩

/-- No edge changes the distance of the vertex it comes from. -/
theorem distance_relax_self (next : V) (l : Labels V) (v : V) :
    (relax next l v).distance next = l.distance next := by
  by_cases h : next = v
  · subst h
    rw [relax, if_neg (Nat.not_lt.mpr (Nat.le_succ _))]
  · exact (relax_of_ne next l h).1

/-- What the edges from `next` do at a vertex: they lead to it and improve it, or they
leave it as it is. -/
theorem foldl_relax (next : V) (l : Labels V) (vs : List V) (w : V) :
    (w ∈ vs ∧ l.distance next + 1 < l.distance w ∧
        (vs.foldl (relax next) l).distance w = l.distance next + 1 ∧
        (vs.foldl (relax next) l).predecessor w = some next) ∨
      ((w ∈ vs → l.distance w ≤ l.distance next + 1) ∧
        (vs.foldl (relax next) l).distance w = l.distance w ∧
        (vs.foldl (relax next) l).predecessor w = l.predecessor w) := by
  induction vs generalizing l with
  | nil => exact .inr ⟨fun h ↦ absurd h List.not_mem_nil, rfl, rfl⟩
  | cons v vs ih =>
      have hrest := ih (relax next l v)
      rw [distance_relax_self] at hrest
      rw [List.foldl_cons]
      by_cases hw : w = v
      · subst hw
        by_cases hlt : l.distance next + 1 < l.distance w
        · have hd : (relax next l w).distance w = l.distance next + 1 := by
            rw [relax, if_pos hlt]
            exact Function.update_self ..
          have hp : (relax next l w).predecessor w = some next := by
            rw [relax, if_pos hlt]
            exact Function.update_self ..
          rw [hd, hp] at hrest
          rcases hrest with ⟨-, hlt', -⟩ | ⟨-, hd', hp'⟩
          · exact absurd hlt' (Nat.lt_irrefl _)
          · exact .inl ⟨List.mem_cons_self, hlt, hd', hp'⟩
        · have hsame : relax next l w = l := if_neg hlt
          rw [hsame] at hrest ⊢
          rcases hrest with ⟨-, hlt', -⟩ | ⟨-, hd', hp'⟩
          · exact absurd hlt' hlt
          · exact .inr ⟨fun _ ↦ Nat.not_lt.mp hlt, hd', hp'⟩
      · obtain ⟨hd, hp⟩ := relax_of_ne next l hw
        rw [hd, hp] at hrest
        rcases hrest with ⟨hmem, hrest⟩ | ⟨hle, hrest⟩
        · exact .inl ⟨List.mem_cons_of_mem _ hmem, hrest⟩
        · exact .inr ⟨fun h ↦ hle ((List.mem_cons.mp h).resolve_left hw), hrest⟩

end Labels

open Labels

/-! ## The invariant -/

/-- The labels in the course of a search from `s`; `inf` is the distance of what was not
reached yet. -/
structure Search (G : SimpleGraph V) (s : V) (inf : ℕ) (l : Labels V) : Prop where
  source : l.distance s = 0
  le : ∀ v, l.distance v ≤ inf
  walk : ∀ v, l.distance v < inf → ∃ p : G.Walk s v, p.length = l.distance v
  nearer : ∀ u w, l.done u = true → l.done w = false → l.distance u ≤ l.distance w
  edge : ∀ u v, l.done u = true → G.Adj u v → l.distance v ≤ l.distance u + 1
  pred : ∀ v, v ≠ s → l.distance v < inf → ∃ p, l.predecessor v = some p ∧ l.done p = true ∧
    G.Adj p v ∧ l.distance v = l.distance p + 1

namespace Search

variable {G : SimpleGraph V} {s v : V} {inf n : ℕ} {l : Labels V}

/-- Visiting a nearest vertex, along edges of the graph and all of them. -/
theorem visit [DecidableEq V] (h : Search G s inf l) {next : V} {vs : List V}
    (hnew : l.done next = false)
    (hmin : ∀ w, l.done w = false → l.distance next ≤ l.distance w)
    (hadj : ∀ v ∈ vs, v = next ∨ G.Adj next v) (hall : ∀ v, G.Adj next v → v ∈ vs) :
    Search G s inf (l.visit next vs) := by
  have hcases := foldl_relax next l vs
  have hdone : ∀ u, (l.visit next vs).done u = true → u = next ∨ l.done u = true := by
    intro u hu
    rw [done_visit] at hu
    by_cases hn : u = next
    · exact .inl hn
    · exact .inr (by rwa [Function.update_of_ne hn] at hu)
  have hkeep : ∀ u, l.done u = true → (l.visit next vs).done u = true := by
    intro u hu
    rw [done_visit]
    by_cases hn : u = next
    · rw [hn, Function.update_self]
    · rwa [Function.update_of_ne hn]
  -- the distance of a visited vertex is settled
  have hsettled : ∀ u, u = next ∨ l.done u = true →
      (l.visit next vs).distance u = l.distance u := by
    intro u hu
    have hle : l.distance u ≤ l.distance next := by
      rcases hu with rfl | hu
      · exact Nat.le_refl _
      · exact h.nearer u next hu hnew
    rcases hcases u with ⟨-, hlt, -⟩ | ⟨-, hd, -⟩
    · exact absurd hlt (Nat.not_lt.mpr (Nat.le_succ_of_le hle))
    · exact hd
  refine ⟨?_, fun v ↦ ?_, fun v hv ↦ ?_, fun u w hu hw ↦ ?_, fun u v hu huv ↦ ?_,
    fun v hv hlt ↦ ?_⟩
  · rcases hcases s with ⟨-, hlt, -⟩ | ⟨-, hd, -⟩
    · rw [h.source] at hlt
      exact absurd hlt (Nat.not_lt_zero _)
    · exact hd.trans h.source
  · rcases hcases v with ⟨-, hlt, hd, -⟩ | ⟨-, hd, -⟩
    · exact hd.trans_le (hlt.le.trans (h.le v))
    · exact hd.trans_le (h.le v)
  · rcases hcases v with ⟨hmem, hlt, hd, -⟩ | ⟨-, hd, -⟩
    · rcases hadj v hmem with rfl | hnext
      · exact absurd hlt (Nat.not_lt.mpr (Nat.le_succ _))
      · obtain ⟨p, hp⟩ := h.walk next
          (Nat.lt_of_succ_lt (Nat.lt_of_lt_of_le hlt (h.le v)))
        refine ⟨p.concat hnext, ?_⟩
        rw [SimpleGraph.Walk.length_concat, hp]
        exact hd.symm
    · obtain ⟨p, hp⟩ := h.walk v (hd ▸ hv)
      exact ⟨p, hp.trans hd.symm⟩
  · have hu := hdone u hu
    have hold : l.done w = false := by
      rw [← Bool.not_eq_true] at hw ⊢
      exact fun hc ↦ hw (hkeep w hc)
    have hle : l.distance u ≤ l.distance next := by
      rcases hu with rfl | hu
      · exact Nat.le_refl _
      · exact h.nearer u next hu hnew
    rw [hsettled u hu]
    rcases hcases w with ⟨-, -, hd, -⟩ | ⟨-, hd, -⟩
    · exact (Nat.le_succ_of_le hle).trans hd.ge
    · exact (hle.trans (hmin w hold)).trans hd.ge
  · have hu := hdone u hu
    rw [hsettled u hu]
    rcases hcases v with ⟨-, hlt, hd, -⟩ | ⟨hle, hd, -⟩
    · rcases hu with rfl | hu
      · exact hd.le
      · exact hd.trans_le (hlt.le.trans (h.edge u v hu huv))
    · rcases hu with rfl | hu
      · exact hd.trans_le (hle (hall v huv))
      · exact hd.trans_le (h.edge u v hu huv)
  · rcases hcases v with ⟨hmem, hlt', hd, hp⟩ | ⟨-, hd, hp⟩
    · rcases hadj v hmem with rfl | hnext
      · exact absurd hlt' (Nat.not_lt.mpr (Nat.le_succ _))
      · refine ⟨next, hp, ?_, hnext, ?_⟩
        · rw [done_visit]
          exact Function.update_self ..
        · rw [hsettled next (.inl rfl)]
          exact hd
    · obtain ⟨p, hpred, hpdone, hadj', hdist⟩ := h.pred v hv (hd ▸ hlt)
      refine ⟨p, hp.trans hpred, hkeep p hpdone, hadj', ?_⟩
      rw [hsettled p (.inr hpdone)]
      exact hd.trans hdist

/-- A walk along visited vertices is no shorter than the labels say. -/
theorem distance_le (h : Search G s inf l) (hall : ∀ u v, G.Adj u v → l.done u = true)
    {u v : V} (p : G.Walk u v) : l.distance v ≤ l.distance u + p.length := by
  induction p with
  | nil => exact Nat.le_refl _
  | @cons u w v huw p ih =>
      have hedge := h.edge u w (hall u w huw) huw
      rw [SimpleGraph.Walk.length_cons]
      omega

/-- When all vertices have been visited, the labels hold the distances. -/
theorem distance_eq (h : Search G s inf l) (hall : ∀ u v, G.Adj u v → l.done u = true)
    (hv : G.Reachable s v) (hlt : G.dist s v < inf) : l.distance v = G.dist s v := by
  obtain ⟨p, hp⟩ := hv.exists_walk_length_eq_dist
  have hle : l.distance v ≤ G.dist s v := by
    have := h.distance_le hall p
    rwa [h.source, Nat.zero_add, hp] at this
  obtain ⟨q, hq⟩ := h.walk v (Nat.lt_of_le_of_lt hle hlt)
  exact Nat.le_antisymm hle (hq ▸ G.dist_le q)

/-- Going back from a vertex that was reached comes to a neighbour of `s`, from which it
is one step less. -/
theorem exists_firstHop [DecidableEq V] (h : Search G s inf l) (hv : v ≠ s)
    (hlt : l.distance v < inf) (hn : l.distance v ≤ n) :
    ∃ r, firstHop l.predecessor s n v = some r ∧ G.Adj s r ∧
      ∃ p : G.Walk r v, p.length + 1 = l.distance v := by
  induction n generalizing v with
  | zero =>
      obtain ⟨p, -, -, -, hdist⟩ := h.pred v hv hlt
      exact absurd (hdist ▸ hn) (Nat.not_succ_le_zero _)
  | succ n ih =>
      obtain ⟨p, hpred, -, hadj, hdist⟩ := h.pred v hv hlt
      rw [firstHop, hpred]
      by_cases hp : p = s
      · subst hp
        refine ⟨v, if_pos rfl, hadj, .nil, ?_⟩
        rw [hdist, h.source]
        rfl
      · rw [hdist] at hlt hn
        obtain ⟨r, hr, hsr, q, hq⟩ := ih hp (Nat.lt_of_succ_lt hlt) (Nat.le_of_succ_le_succ hn)
        refine ⟨r, (if_neg hp).trans hr, hsr, q.concat hadj, ?_⟩
        rw [SimpleGraph.Walk.length_concat, hq, hdist]

end Search

end ShortestPath
