import Mathlib.Logic.Function.Iterate
import BitTorrent.Router.Topology

/-!
# The routing tables

The search of `createTable` visits all routers, each time a nearest one among the others,
and so finds the shortest paths from its router.  The predecessors that an earlier search
left do not matter: every router that is reached gets a new one.
-/

namespace BitTorrent

open ShortestPath

variable {T : Type}

namespace Simulator

/-! ## The vertex to visit next -/

/-- The loop keeps a nearest vertex among those it has seen. -/
theorem nextVertex_cases (l : Labels Nat) (vs : List Nat) (best : Option Nat × Nat) :
    let next := vs.foldl
      (fun best v ↦ if !l.done v && l.distance v < best.2 then (some v, l.distance v) else best) best
    next.2 ≤ best.2 ∧ (∀ w ∈ vs, l.done w = false → next.2 ≤ l.distance w) ∧
      (next = best ∨ ∃ v ∈ vs, l.done v = false ∧ next = (some v, l.distance v)) := by
  induction vs generalizing best with
  | nil => exact ⟨Nat.le_refl _, fun w hw ↦ absurd hw List.not_mem_nil, .inl rfl⟩
  | cons v vs ih =>
      rw [List.foldl_cons]
      obtain ⟨hle, hmin, hcases⟩ := ih
        (if !l.done v && l.distance v < best.2 then (some v, l.distance v) else best)
      by_cases hv : (!l.done v && decide (l.distance v < best.2)) = true
      · rw [if_pos hv] at hle hmin hcases ⊢
        rw [Bool.and_eq_true, Bool.not_eq_true', decide_eq_true_eq] at hv
        refine ⟨hle.trans hv.2.le, fun w hw hdone ↦ ?_, .inr ?_⟩
        · rcases List.mem_cons.mp hw with rfl | hw
          · exact hle
          · exact hmin w hw hdone
        · rcases hcases with heq | ⟨u, hu, hdone, heq⟩
          · exact ⟨v, List.mem_cons_self, hv.1, heq⟩
          · exact ⟨u, List.mem_cons_of_mem _ hu, hdone, heq⟩
      · rw [if_neg hv] at hle hmin hcases ⊢
        refine ⟨hle, fun w hw hdone ↦ ?_, ?_⟩
        · rcases List.mem_cons.mp hw with rfl | hw
          · rw [hdone, Bool.not_false, Bool.true_and, decide_eq_true_eq] at hv
            exact hle.trans (Nat.le_of_not_lt hv)
          · exact hmin w hw hdone
        · refine hcases.imp_right ?_
          rintro ⟨u, hu, hdone, heq⟩
          exact ⟨u, List.mem_cons_of_mem _ hu, hdone, heq⟩

/-- As long as a vertex is left, one of the nearest is found. -/
theorem exists_nextVertex {l : Labels Nat} {vs : List Nat} {w : Nat}
    (hle : ∀ v, l.distance v ≤ infinity) (hw : w ∈ vs) (hdone : l.done w = false) :
    ∃ v ∈ vs, l.done v = false ∧ (nextVertex l vs).1 = some v ∧
      ∀ u ∈ vs, l.done u = false → l.distance v ≤ l.distance u := by
  obtain ⟨-, hmin, heq | ⟨v, hv, hnew, heq⟩⟩ := nextVertex_cases l vs (none, infinity + 1)
  · have hlt := hmin w hw hdone
    rw [heq] at hlt
    exact absurd (hlt.trans (hle w)) (Nat.not_succ_le_self _)
  · rw [heq] at hmin
    exact ⟨v, hv, hnew, congrArg Prod.fst heq, hmin⟩

/-! ## The search -/

section Search

variable {s : Simulator T} {self : Nat} {l : Labels Nat}

theorem search_baseLabels (s : Simulator T) (self : Nat) (predecessor : Nat → Option Nat) :
    Search s.graph self infinity (baseLabels self predecessor) where
  source := if_pos rfl
  le v := by
    simp only [baseLabels]
    split
    · exact Nat.zero_le _
    · exact Nat.le_refl _
  walk v hv := by
    simp only [baseLabels] at hv ⊢
    split at hv
    · next h =>
        subst h
        exact ⟨.nil, (if_pos rfl).symm⟩
    · exact absurd hv (Nat.lt_irrefl _)
  nearer _ _ hu _ := nomatch hu
  edge _ _ hu _ := nomatch hu
  pred v hv hlt := by
    simp only [baseLabels] at hlt
    rw [if_neg hv] at hlt
    exact absurd hlt (Nat.lt_irrefl _)

/-- One turn: while a router is left, one more is done. -/
theorem search_visitNext (hs : s.Wired) (hself : self ∈ s.ids) (h : Search s.graph self infinity l)
    {w : Nat} (hw : w ∈ s.ids) (hdone : l.done w = false) :
    ∃ next ∈ s.ids, l.done next = false ∧ Search s.graph self infinity (s.visitNext l) ∧
      (s.visitNext l).done = Function.update l.done next true := by
  obtain ⟨next, hnext, hnew, heq, hmin⟩ := exists_nextVertex h.le hw hdone
  refine ⟨next, hnext, hnew, ?_, ?_⟩
  · rw [visitNext, heq]
    refine h.visit hnew (fun u hu ↦ ?_) (fun v hv ↦ ?_) fun v hv ↦ ?_
    · by_cases hmem : u ∈ s.ids
      · exact hmin u hmem hu
      · refine (h.le next).trans (Nat.le_of_not_lt fun hlt ↦ hmem ?_)
        obtain ⟨p, -⟩ := h.walk u hlt
        exact hs.mem_ids_of_reachable hself ⟨p⟩
    · by_cases hne : v = next
      · exact .inl hne
      · exact .inr (hs.adj_iff.mpr ⟨Ne.symm hne, hs.mem_neighbours.mp hv⟩)
    · exact hs.mem_neighbours.mpr (hs.adj_iff.mp hv).2
  · rw [visitNext, heq]
    exact Labels.done_visit ..

/-- How many routers are left after a number of turns. -/
theorem search_iterate (hs : s.Wired) (hself : self ∈ s.ids) (h : Search s.graph self infinity l)
    (n : Nat) :
    Search s.graph self infinity (s.visitNext^[n] l) ∧
      (s.ids.filter fun v ↦ !(s.visitNext^[n] l).done v).length ≤
        (s.ids.filter fun v ↦ !l.done v).length - n := by
  induction n with
  | zero => exact ⟨h, Nat.le_refl _⟩
  | succ n ih =>
      rw [Function.iterate_succ_apply']
      obtain ⟨hn, hleft⟩ := ih
      generalize s.visitNext^[n] l = l' at hn hleft ⊢
      cases hfilter : s.ids.filter fun v ↦ !l'.done v with
      | nil =>
          have hall : (nextVertex l' s.ids).1 = none := by
            obtain ⟨-, -, heq | ⟨v, hv, hnew, -⟩⟩ := nextVertex_cases l' s.ids (none, infinity + 1)
            · exact congrArg Prod.fst heq
            · have := List.filter_eq_nil_iff.mp hfilter v hv
              rw [hnew] at this
              exact absurd rfl this
          have hstay : s.visitNext l' = l' := by rw [visitNext, hall]
          rw [hstay, hfilter]
          exact ⟨hn, Nat.zero_le _⟩
      | cons w ws =>
          obtain ⟨hw, hdone⟩ := List.mem_filter.mp (hfilter ▸ List.mem_cons_self :
            w ∈ s.ids.filter fun v ↦ !l'.done v)
          rw [Bool.not_eq_true'] at hdone
          obtain ⟨next, hmem, hnew, hsearch, hdone'⟩ := search_visitNext hs hself hn hw hdone
          refine ⟨hsearch, ?_⟩
          have hrest : (s.ids.filter fun v ↦ !(s.visitNext l').done v) =
              (s.ids.filter fun v ↦ !l'.done v).filter fun v ↦ v != next := by
            rw [List.filter_filter, hdone']
            refine List.filter_congr fun v _ ↦ ?_
            by_cases hv : v = next
            · subst hv
              simp
            · simp [hv]
          have hlt : (s.ids.filter fun v ↦ !(s.visitNext l').done v).length <
              (s.ids.filter fun v ↦ !l'.done v).length := by
            rw [hrest]
            refine List.length_filter_lt_length_iff_exists.mpr ⟨next, ?_, by simp⟩
            exact List.mem_filter.mpr ⟨hmem, by rw [hnew]; rfl⟩
          omega

/-- The search ends with the distances of all routers, whatever the predecessors were. -/
theorem search_spec (hs : s.Wired) (hself : self ∈ s.ids) (predecessor : Nat → Option Nat) :
    Search s.graph self infinity (s.search self predecessor) ∧
      ∀ v ∈ s.ids, (s.search self predecessor).done v = true := by
  rw [search, List.foldl_const]
  obtain ⟨hsearch, hleft⟩ :=
    search_iterate hs hself (search_baseLabels s self predecessor) s.ids.length
  refine ⟨hsearch, fun v hv ↦ ?_⟩
  have hnil : (s.ids.filter fun v ↦ !(s.visitNext^[s.ids.length]
      (baseLabels self predecessor)).done v) = [] := by
    have hle := List.length_filter_le (fun v ↦ !(baseLabels self predecessor).done v) s.ids
    exact List.eq_nil_of_length_eq_zero (by omega)
  have := List.filter_eq_nil_iff.mp hnil v hv
  simpa using this

/-- Going back from a router comes to the first one of a shortest path. -/
theorem exists_firstHop (hs : s.Wired) (hself : self ∈ s.ids) (hlen : s.ids.length ≤ infinity)
    (predecessor : Nat → Option Nat) {d : Nat} (hd : d ≠ self)
    (hreach : s.graph.Reachable self d) :
    ∃ hop, Labels.firstHop (s.search self predecessor).predecessor self s.count d = some hop ∧
      s.graph.Adj self hop ∧ s.graph.dist hop d + 1 = s.graph.dist self d := by
  obtain ⟨hsearch, hall⟩ := search_spec hs hself predecessor
  have hdist := hs.dist_lt hself hreach
  have hlt := Nat.lt_of_lt_of_le hdist hlen
  have heq := hsearch.distance_eq
    (fun u v huv ↦ hall u (hs.mem_ids_of_link (hs.adj_iff.mp huv).2)) hreach hlt
  have hcount : s.ids.length ≤ s.count :=
    (List.length_filter_le ..).trans (List.length_range ..).le
  obtain ⟨hop, hhop, hadj, p, hp⟩ := hsearch.exists_firstHop (n := s.count) hd (heq ▸ hlt)
    (heq ▸ (hdist.le.trans hcount))
  refine ⟨hop, hhop, hadj, Nat.le_antisymm ?_ ?_⟩
  · rw [← heq, ← hp]
    exact Nat.succ_le_succ (s.graph.dist_le p)
  · obtain ⟨q, hq⟩ := (show s.graph.Reachable hop d from ⟨p⟩).exists_walk_length_eq_dist
    rw [← hq]
    exact s.graph.dist_le (.cons hadj q)

end Search

/-! ## The tables -/

/-- The simulator with other routing tables. -/
def withTables (s : Simulator T) (tables : Nat → Nat → Option Nat) : Simulator T :=
  { s with routers := fun a ↦ (s.routers a).map fun r ↦ { r with routingTable := tables a } }

/-- The table of router `a` leads to every other router, along a shortest path. -/
def Routed (s : Simulator T) (tables : Nat → Nat → Option Nat) (a : Nat) : Prop :=
  ∀ d, (d ∈ s.ids → d ≠ a → ∃ hop, tables a d = some hop ∧ s.graph.Adj a hop ∧
      s.graph.dist hop d + 1 = s.graph.dist a d) ∧
    ((d ∈ s.ids → d = a) → tables a d = none)

section Tables

variable {s : Simulator T} {a : Nat}

@[simp] theorem ids_withTables (s : Simulator T) (tables : Nat → Nat → Option Nat) :
    (s.withTables tables).ids = s.ids := by
  simp only [ids, withTables, Option.isSome_map]

@[simp] theorem queueAt_withTables (s : Simulator T) (tables : Nat → Nat → Option Nat) :
    (s.withTables tables).queueAt = s.queueAt := by
  funext a b
  simp only [queueAt, withTables]
  cases s.routers a <;> rfl

@[simp] theorem link_withTables (s : Simulator T) (tables : Nat → Nat → Option Nat) :
    (s.withTables tables).Link = s.Link := by
  funext a b
  simp only [Link, queueAt_withTables]

@[simp] theorem graph_withTables (s : Simulator T) (tables : Nat → Nat → Option Nat) :
    (s.withTables tables).graph = s.graph := by
  rw [graph, link_withTables, graph]

theorem wired_withTables (hs : s.Wired) (tables : Nat → Nat → Option Nat) :
    (s.withTables tables).Wired where
  id a r hr := by
    obtain ⟨r', hr', rfl⟩ := Option.map_eq_some_iff.mp hr
    exact hs.id a r' hr'
  lt a ha := hs.lt a ((Option.isSome_map ..).symm.trans ha)
  symm a b hab := by
    rw [Link, queueAt_withTables] at hab ⊢
    exact hs.symm a b hab

/-- With a way back from every vertex, over a neighbour, the loop fills the table. -/
theorem fillTable_spec {r : NSRouter T} {predecessor : Nat → Option Nat} {n : Nat} {vs : List Nat}
    (h : ∀ v ∈ vs, v ≠ r.id → ∃ hop, Labels.firstHop predecessor r.id n v = some hop ∧
      (r.routes hop).isSome = true) (table : Nat → Option Nat) :
    ∃ t, fillTable r predecessor n vs table = some t ∧
      (∀ v ∈ vs, v ≠ r.id → t v = Labels.firstHop predecessor r.id n v) ∧
      ∀ v, (v ∈ vs → v = r.id) → t v = table v := by
  induction vs generalizing table with
  | nil => exact ⟨table, rfl, fun v hv ↦ absurd hv List.not_mem_nil, fun _ _ ↦ rfl⟩
  | cons v vs ih =>
      have hrest : ∀ w ∈ vs, w ≠ r.id → _ := fun w hw ↦ h w (List.mem_cons_of_mem _ hw)
      rw [fillTable]
      by_cases hv : v = r.id
      · obtain ⟨t, ht, hin, hout⟩ := ih hrest table
        refine ⟨t, (if_pos hv).trans ht, fun w hw hne ↦ ?_, fun w hw ↦ ?_⟩
        · exact hin w ((List.mem_cons.mp hw).resolve_left fun hc ↦ hne (hc.trans hv)) hne
        · exact hout w fun hmem ↦ hw (List.mem_cons_of_mem _ hmem)
      · obtain ⟨hop, hhop, hroute⟩ := h v List.mem_cons_self hv
        obtain ⟨q, hq⟩ := Option.isSome_iff_exists.mp hroute
        obtain ⟨t, ht, hin, hout⟩ := ih hrest (Function.update table v (some hop))
        rw [if_neg hv, hhop, Option.bind_eq_bind, Option.bind_some, hq]
        refine ⟨t, ht, fun w hw hne ↦ ?_, fun w hw ↦ ?_⟩
        · by_cases hmem : w ∈ vs
          · exact hin w hmem hne
          · obtain rfl := (List.mem_cons.mp hw).resolve_right hmem
            rw [hout w fun hc ↦ absurd hc hmem, Function.update_self, hhop]
        · have hne : w ≠ v := by
            rintro rfl
            exact hv (hw List.mem_cons_self)
          rw [hout w fun hmem ↦ hw (List.mem_cons_of_mem _ hmem), Function.update_of_ne hne]

/-- `createTable` makes the table of a router, whatever searches were made before. -/
theorem createTable_spec (hs : s.Wired) (hlen : s.ids.length ≤ infinity)
    (hconn : ∀ a ∈ s.ids, ∀ d ∈ s.ids, s.graph.Reachable a d) {r : NSRouter T}
    (hr : s.routers a = some r) (predecessor : Nat → Option Nat) :
    ∃ table predecessor', s.createTable r predecessor =
        some ({ r with routingTable := table }, predecessor') ∧
      s.Routed (fun _ ↦ table) a := by
  have hid := hs.id a r hr
  have ha : a ∈ s.ids := hs.mem_ids.mpr (hr ▸ rfl)
  have hhops : ∀ d ∈ s.ids, d ≠ r.id → ∃ hop,
      Labels.firstHop (s.search r.id predecessor).predecessor r.id s.count d = some hop ∧
        s.graph.Adj a hop ∧ s.graph.dist hop d + 1 = s.graph.dist a d := by
    intro d hd hne
    rw [hid] at hne ⊢
    exact exists_firstHop hs ha hlen predecessor hne (hconn a ha d hd)
  have hback : ∀ d ∈ s.ids, d ≠ r.id → ∃ hop,
      Labels.firstHop (s.search r.id predecessor).predecessor r.id s.count d = some hop ∧
        (r.routes hop).isSome = true := by
    intro d hd hne
    obtain ⟨hop, hhop, hadj, -⟩ := hhops d hd hne
    have hlink := (hs.adj_iff.mp hadj).2
    rw [Link, queueAt, hr] at hlink
    exact ⟨hop, hhop, hlink⟩
  obtain ⟨table, htable, hin, hout⟩ := fillTable_spec hback fun _ ↦ none
  refine ⟨table, _, by rw [createTable, htable]; rfl, fun d ↦ ⟨fun hd hne ↦ ?_, fun hd ↦ ?_⟩⟩
  · rw [← hid] at hne
    obtain ⟨hop, hhop, hadj, hdist⟩ := hhops d hd hne
    exact ⟨hop, (hin d hd hne).trans hhop, hadj, hdist⟩
  · exact hout d fun hmem ↦ (hd hmem).trans hid.symm

/-- The loop over the routers makes a table for each. -/
theorem createTables_spec (hs : s.Wired) (hlen : s.ids.length ≤ infinity)
    (hconn : ∀ a ∈ s.ids, ∀ d ∈ s.ids, s.graph.Reachable a d) {vs : List Nat} (hvs : vs ⊆ s.ids)
    (tables : Nat → Nat → Option Nat) (predecessor : Nat → Option Nat) :
    ∃ tables', createTables vs (s.withTables tables) predecessor = some (s.withTables tables') ∧
      (∀ a ∈ vs, s.Routed tables' a) ∧ ∀ a, a ∉ vs → tables' a = tables a := by
  induction vs generalizing tables predecessor with
  | nil => exact ⟨tables, rfl, fun a ha ↦ absurd ha List.not_mem_nil, fun _ _ ↦ rfl⟩
  | cons v vs ih =>
      obtain ⟨hv, hvs⟩ := List.cons_subset.mp hvs
      obtain ⟨r, hr⟩ := Option.isSome_iff_exists.mp (hs.mem_ids.mp hv)
      have hr' : (s.withTables tables).routers v = some { r with routingTable := tables v } := by
        simp only [withTables, hr, Option.map_some]
      obtain ⟨table, predecessor', hcreate, hrouted⟩ := createTable_spec
        (wired_withTables hs tables) (by rwa [ids_withTables])
        (by rwa [ids_withTables, graph_withTables]) hr' predecessor
      obtain ⟨tables', hrest, hin, hout⟩ := ih hvs (Function.update tables v table) predecessor'
      have hset : { s.withTables tables with
            routers := Function.update (s.withTables tables).routers v
              (some { r with routingTable := table }) } =
          s.withTables (Function.update tables v table) := by
        simp only [withTables, Simulator.mk.injEq, true_and, and_true]
        funext a
        by_cases ha : a = v
        · subst ha
          simp [hr]
        · simp [ha]
      refine ⟨tables', ?_, fun a ha ↦ ?_, fun a ha ↦ ?_⟩
      · rw [createTables, hr']
        simp only [hcreate, Option.bind_eq_bind, Option.bind_some]
        rw [hset]
        exact hrest
      · by_cases hmem : a ∈ vs
        · exact hin a hmem
        · obtain rfl := (List.mem_cons.mp ha).resolve_right hmem
          intro d
          rw [hout a hmem, Function.update_self]
          have := hrouted d
          rwa [ids_withTables, graph_withTables] at this
      · rw [hout a fun hmem ↦ ha (List.mem_cons_of_mem _ hmem),
          Function.update_of_ne (List.ne_of_not_mem_cons ha)]

end Tables

/-- The neighbour to which a router hands the packets for a destination. -/
def tableAt (s : Simulator T) (a d : Nat) : Option Nat :=
  (s.routers a).bind fun r ↦ r.routingTable d

/-- The routers of the map file are made without tables, and `main` gives them theirs. -/
theorem start_eq {lines : List (MapLine T)} (hlen : (mapNodes lines).dedup.length ≤ infinity)
    (hconn : ∀ a ∈ mapNodes lines, ∀ d ∈ mapNodes lines, (mapGraph lines).Reachable a d)
    (nodes : UInt32 × UInt16 → Option Nat) :
    ∃ tables, start nodes lines = some ((lines.foldl addLine (blank nodes)).withTables tables) ∧
      ∀ a ∈ mapNodes lines, (lines.foldl addLine (blank nodes)).Routed tables a := by
  have hs := wired_lines (wired_blank nodes) lines
  have hids := mem_ids_lines nodes lines
  have hgraph := graph_lines nodes lines
  have hnodup : (lines.foldl addLine (blank nodes)).ids.Nodup := List.nodup_range.filter _
  have hle : (lines.foldl addLine (blank nodes)).ids.length ≤ infinity :=
    (hnodup.length_le_of_subset fun a ha ↦
      List.mem_dedup.mpr ((hids a).mp ha)).trans hlen
  have hnew : ∃ tables, (lines.foldl addLine (blank nodes)).withTables tables =
      lines.foldl addLine (blank nodes) := by
    refine ⟨fun a ↦ (((lines.foldl addLine (blank nodes)).routers a).map
      NSRouter.routingTable).getD fun _ ↦ none, ?_⟩
    simp only [withTables]
    congr 1
    funext a
    cases (lines.foldl addLine (blank nodes)).routers a <;> rfl
  obtain ⟨tables, htables⟩ := hnew
  obtain ⟨tables', hcreate, hrouted, -⟩ := createTables_spec hs hle
    (by simpa only [hids, hgraph] using hconn) (List.Subset.refl _) tables fun _ ↦ none
  rw [htables] at hcreate
  exact ⟨tables', hcreate, fun a ha ↦ hrouted a ((hids a).mpr ha)⟩

/-- When the lines of the map file connect all of its routers, which are not too many, the
simulator starts, and at every router the table gives, for every other one, a neighbour
from which it is one hop less. -/
theorem exists_start_tableAt {lines : List (MapLine T)}
    (hlen : (mapNodes lines).dedup.length ≤ infinity)
    (hconn : ∀ a ∈ mapNodes lines, ∀ d ∈ mapNodes lines, (mapGraph lines).Reachable a d)
    (nodes : UInt32 × UInt16 → Option Nat) :
    ∃ s, start nodes lines = some s ∧ ∀ a ∈ mapNodes lines, ∀ d ∈ mapNodes lines, a ≠ d →
      ∃ hop, s.tableAt a d = some hop ∧ (s.queueAt a hop).isSome = true ∧
        (mapGraph lines).Adj a hop ∧
        (mapGraph lines).dist hop d + 1 = (mapGraph lines).dist a d := by
  obtain ⟨tables, hstart, hrouted⟩ := start_eq hlen hconn nodes
  refine ⟨_, hstart, fun a ha d hd hne ↦ ?_⟩
  obtain ⟨hop, hhop, hadj, hdist⟩ :=
    (hrouted a ha d).1 ((mem_ids_lines nodes lines d).mpr hd) hne.symm
  have hs := wired_lines (wired_blank (T := T) nodes) lines
  obtain ⟨r, hr⟩ :=
    Option.isSome_iff_exists.mp (hs.mem_ids.mp ((mem_ids_lines nodes lines a).mpr ha))
  rw [graph_lines] at hadj hdist
  refine ⟨hop, ?_, ?_, hadj, hdist⟩
  · simp only [tableAt, withTables, hr, Option.map_some, Option.bind_some]
    exact hhop
  · rw [queueAt_withTables]
    rw [← graph_lines nodes] at hadj
    exact (hs.adj_iff.mp hadj).2

/-- Three routers in a row. -/
def threeRouters : List (MapLine Nat) := [⟨1, 2, 30000, 0, some 10⟩, ⟨2, 3, 50000, 0, none⟩]

theorem reachable_threeRouters :
    ∀ a ∈ mapNodes threeRouters, ∀ d ∈ mapNodes threeRouters,
      (mapGraph threeRouters).Reachable a d := by
  have h12 : (mapGraph threeRouters).Adj 1 2 := by simp [mapGraph, threeRouters]
  have h32 : (mapGraph threeRouters).Adj 3 2 := by simp [mapGraph, threeRouters]
  have hmid : ∀ a ∈ mapNodes threeRouters, (mapGraph threeRouters).Reachable a 2 := by
    intro a ha
    change a ∈ [2, 1, 3, 2] at ha
    simp only [List.mem_cons, List.not_mem_nil, or_false] at ha
    rcases ha with rfl | rfl | rfl | rfl
    · exact .refl 2
    · exact h12.reachable
    · exact h32.reachable
    · exact .refl 2
  exact fun a ha d hd ↦ (hmid a ha).trans (hmid d hd).symm

/-- Three routers in a row. -/
theorem exists_start_tableAt_threeRouters :
    ∃ s, start (fun _ ↦ none) threeRouters = some s ∧
      ∀ a ∈ mapNodes threeRouters, ∀ d ∈ mapNodes threeRouters, a ≠ d →
        ∃ hop, s.tableAt a d = some hop ∧ (s.queueAt a hop).isSome = true ∧
          (mapGraph threeRouters).Adj a hop ∧
          (mapGraph threeRouters).dist hop d + 1 = (mapGraph threeRouters).dist a d :=
  exists_start_tableAt (by decide) reachable_threeRouters _

end Simulator

end BitTorrent
