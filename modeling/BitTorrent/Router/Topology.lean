import Mathlib.Combinatorics.SimpleGraph.Metric
import BitTorrent.Router

/-!
# The links between the routers

What `main` has built when it comes to the end of the map file: the routers are those
that the lines name, and there is a queue in both directions for each line.
-/

namespace BitTorrent

variable {T : Type}

/-- The routers that the lines of a map file name. -/
def mapNodes (lines : List (MapLine T)) : List Nat := lines.flatMap fun l ↦ [l.dst, l.src]

/-- The graph that the lines of a map file describe. -/
def mapGraph (lines : List (MapLine T)) : SimpleGraph Nat :=
  SimpleGraph.fromRel fun a b ↦ ∃ l ∈ lines, l.src = a ∧ l.dst = b

/-- A map file that connects its routers, with bit rates that the queues can divide by, and
a node file that names only routers of it. -/
structure GoodMap (nodes : UInt32 × UInt16 → Option Nat) (lines : List (MapLine T)) : Prop where
  size : (mapNodes lines).dedup.length ≤ infinity
  connected : ∀ a ∈ mapNodes lines, ∀ d ∈ mapNodes lines, (mapGraph lines).Reachable a d
  rate : ∀ l ∈ lines, 8 ≤ l.rate
  node : ∀ k d, nodes k = some d → d ∈ mapNodes lines

namespace Simulator

/-- The queue of router `a` for the packets to router `b`. -/
def queueAt (s : Simulator T) (a b : Nat) : Option (NSQueue T) :=
  (s.routers a).bind fun r ↦ r.routes b

/-- Router `a` has a route to router `b`. -/
def Link (s : Simulator T) (a b : Nat) : Prop := (s.queueAt a b).isSome = true

/-- The routers and the links between them. -/
def graph (s : Simulator T) : SimpleGraph Nat := SimpleGraph.fromRel s.Link

/-- What `main` keeps while it reads the map file. -/
structure Wired (s : Simulator T) : Prop where
  id : ∀ a r, s.routers a = some r → r.id = a
  lt : ∀ a, (s.routers a).isSome = true → a < s.count
  symm : ∀ a b, s.Link a b → s.Link b a

variable {s : Simulator T} {a b : Nat}

theorem Link.isSome (h : s.Link a b) : (s.routers a).isSome = true := by
  rw [Link, queueAt] at h
  cases hr : s.routers a with
  | none =>
      rw [hr] at h
      exact h
  | some r => rfl

namespace Wired

theorem mem_ids (h : s.Wired) : a ∈ s.ids ↔ (s.routers a).isSome = true := by
  rw [ids, List.mem_filter, List.mem_range]
  exact ⟨And.right, fun ha ↦ ⟨h.lt a ha, ha⟩⟩

theorem mem_ids_of_link (h : s.Wired) (hab : s.Link a b) : a ∈ s.ids := h.mem_ids.mpr hab.isSome

theorem adj_iff (h : s.Wired) : s.graph.Adj a b ↔ a ≠ b ∧ s.Link a b := by
  rw [graph, SimpleGraph.fromRel_adj]
  refine and_congr_right fun _ ↦ ⟨?_, .inl⟩
  rintro (hab | hba)
  · exact hab
  · exact h.symm b a hba

theorem mem_neighbours (h : s.Wired) : b ∈ s.neighbours a ↔ s.Link a b := by
  rw [neighbours, Link, queueAt]
  cases hr : s.routers a with
  | none => exact ⟨fun hc ↦ absurd hc List.not_mem_nil, fun hc ↦ nomatch hc⟩
  | some r =>
      rw [List.mem_filter, List.mem_range]
      refine ⟨And.right, fun hb ↦ ⟨h.lt b (h.symm a b ?_).isSome, hb⟩⟩
      rw [Link, queueAt, hr]
      exact hb

/-- What is reached from a router is a router. -/
theorem mem_ids_of_reachable (h : s.Wired) (ha : a ∈ s.ids) (hab : s.graph.Reachable a b) :
    b ∈ s.ids := by
  obtain ⟨p⟩ := hab.symm
  cases p with
  | nil => exact ha
  | cons hadj _ => exact h.mem_ids_of_link (h.adj_iff.mp hadj).2

/-- A shortest path passes through no router twice. -/
theorem dist_lt (h : s.Wired) (ha : a ∈ s.ids) (hab : s.graph.Reachable a b) :
    s.graph.dist a b < s.ids.length := by
  obtain ⟨p, hpath, hlen⟩ := hab.exists_path_of_dist
  have hsub : p.support ⊆ s.ids := fun v hv ↦
    h.mem_ids_of_reachable ha ⟨p.takeUntil v hv⟩
  have hle := hpath.support_nodup.length_le_of_subset hsub
  rw [SimpleGraph.Walk.length_support, hlen] at hle
  exact hle

end Wired

/-! ## Reading the map file -/

variable (s : Simulator T) (l : MapLine T)

theorem isSome_addRouter (i a : Nat) :
    ((s.addRouter i).routers a).isSome = true ↔ (s.routers a).isSome = true ∨ a = i := by
  rw [addRouter]
  cases hr : s.routers i with
  | none =>
      by_cases ha : a = i
      · subst ha
        simp
      · simp [ha]
  | some r =>
      refine ⟨.inl, fun h ↦ h.elim id ?_⟩
      rintro rfl
      rw [hr]
      rfl

@[simp] theorem queueAt_addRouter (i : Nat) : (s.addRouter i).queueAt = s.queueAt := by
  funext a b
  rw [addRouter]
  cases hr : s.routers i with
  | none =>
      by_cases ha : a = i
      · subst ha
        simp [queueAt, hr, NSRouter.new]
      · simp [queueAt, Function.update_of_ne ha]
  | some r => rfl

theorem isSome_addRoute (i j a : Nat) :
    ((s.addRoute i j l).routers a).isSome = (s.routers a).isSome := by
  rw [addRoute]
  by_cases ha : a = i
  · subst ha
    simp
  · simp [Function.update_of_ne ha]

/-- A new queue at a router that is there, and all others as they are. -/
theorem queueAt_addRoute (i j a b : Nat) (hi : (s.routers i).isSome = true) :
    (s.addRoute i j l).queueAt a b =
      if a = i ∧ b = j then some (.new l.rate l.latency l.max) else s.queueAt a b := by
  obtain ⟨r, hr⟩ := Option.isSome_iff_exists.mp hi
  by_cases ha : a = i
  · subst ha
    by_cases hb : b = j
    · subst hb
      simp [queueAt, addRoute, hr, NSRouter.addRoute]
    · simp [queueAt, addRoute, hr, NSRouter.addRoute, hb]
  · simp [queueAt, addRoute, ha]

theorem isSome_addLine (a : Nat) :
    ((s.addLine l).routers a).isSome = true ↔
      (s.routers a).isSome = true ∨ a = l.dst ∨ a = l.src := by
  rw [addLine, isSome_addRoute, isSome_addRoute, isSome_addRouter, isSome_addRouter, or_assoc]

/-- The queues after a line: new ones in both directions. -/
theorem queueAt_addLine (a b : Nat) :
    (s.addLine l).queueAt a b =
      if a = l.src ∧ b = l.dst ∨ a = l.dst ∧ b = l.src then some (.new l.rate l.latency l.max)
      else s.queueAt a b := by
  rw [addLine, queueAt_addRoute, queueAt_addRoute, queueAt_addRouter, queueAt_addRouter]
  · by_cases h : a = l.src ∧ b = l.dst
    · simp [h]
    · simp [h]
  · rw [isSome_addRouter, isSome_addRouter]
    exact .inl (.inr rfl)
  · rw [isSome_addRoute, isSome_addRouter]
    exact .inr rfl

theorem link_addLine (a b : Nat) :
    (s.addLine l).Link a b ↔
      s.Link a b ∨ a = l.src ∧ b = l.dst ∨ a = l.dst ∧ b = l.src := by
  rw [Link, queueAt_addLine]
  split
  · next h => exact ⟨fun _ ↦ .inr h, fun _ ↦ rfl⟩
  · next h => exact ⟨.inl, fun hab ↦ hab.resolve_right h⟩

variable {s}

/-- What holds of new routers, and of routers that get a route, holds of all. -/
theorem forall_addLine {p : Nat → NSRouter T → Prop} (hnew : ∀ a, p a (.new a))
    (hroute : ∀ a r j rate latency max, p a r → p a (r.addRoute j rate latency max))
    (h : ∀ a r, s.routers a = some r → p a r) :
    ∀ a r, (s.addLine l).routers a = some r → p a r := by
  have hrouter : ∀ (s : Simulator T) i, (∀ a r, s.routers a = some r → p a r) →
      ∀ a r, (s.addRouter i).routers a = some r → p a r := by
    intro s i h a r hr
    rw [addRouter] at hr
    split at hr
    · exact h a r hr
    · by_cases ha : a = i
      · subst ha
        simp only [Function.update_self, Option.some.injEq] at hr
        exact hr ▸ hnew a
      · exact h a r ((Function.update_of_ne ha ..).symm.trans hr)
  have hroutes : ∀ (s : Simulator T) i j, (∀ a r, s.routers a = some r → p a r) →
      ∀ a r, (s.addRoute i j l).routers a = some r → p a r := by
    intro s i j h a r hr
    rw [addRoute] at hr
    by_cases ha : a = i
    · subst ha
      simp only [Function.update_self, Option.map_eq_some_iff] at hr
      obtain ⟨r', hr', rfl⟩ := hr
      exact hroute a r' j _ _ _ (h a r' hr')
    · exact h a r ((Function.update_of_ne ha ..).symm.trans hr)
  exact hroutes _ _ _ (hroutes _ _ _ (hrouter _ _ (hrouter _ _ h)))

theorem lt_addRouter (h : ∀ a, (s.routers a).isSome = true → a < s.count) (i a : Nat)
    (ha : ((s.addRouter i).routers a).isSome = true) : a < (s.addRouter i).count := by
  rw [isSome_addRouter] at ha
  rw [addRouter]
  split
  · next r hr =>
      refine ha.elim (h a) ?_
      rintro rfl
      exact h a (by rw [hr]; rfl)
  · refine ha.elim (fun ha ↦ Nat.lt_of_lt_of_le (h a ha) (Nat.le_max_left ..)) ?_
    rintro rfl
    exact Nat.lt_of_lt_of_le (Nat.lt_succ_self a) (Nat.le_max_right ..)

theorem wired_addLine (h : s.Wired) : (s.addLine l).Wired := by
  refine ⟨?_, fun a ha ↦ ?_, fun a b hab ↦ ?_⟩
  · exact forall_addLine l (fun _ ↦ rfl) (fun _ _ _ _ _ _ hid ↦ hid) h.id
  · rw [addLine, isSome_addRoute, isSome_addRoute] at ha
    exact lt_addRouter (lt_addRouter h.lt l.dst) l.src a ha
  · rw [link_addLine] at hab ⊢
    exact hab.imp (h.symm a b) fun hab ↦ hab.symm.imp And.symm And.symm

/-- The simulator before the map file is read. -/
def blank (nodes : UInt32 × UInt16 → Option Nat) : Simulator T :=
  { count := 0, routers := fun _ ↦ none, nodes }

theorem wired_blank (nodes : UInt32 × UInt16 → Option Nat) : (blank (T := T) nodes).Wired where
  id _ _ h := nomatch h
  lt _ h := nomatch h
  symm _ _ h := nomatch h

theorem wired_lines (h : s.Wired) (lines : List (MapLine T)) : (lines.foldl addLine s).Wired := by
  induction lines generalizing s with
  | nil => exact h
  | cons l lines ih => exact ih (wired_addLine l h)

theorem nodes_lines (lines : List (MapLine T)) (s : Simulator T) :
    (lines.foldl addLine s).nodes = s.nodes := by
  induction lines generalizing s with
  | nil => rfl
  | cons l lines ih =>
      have hrouter : ∀ (s : Simulator T) i, (s.addRouter i).nodes = s.nodes := by
        intro s i
        rw [addRouter]
        split <;> rfl
      rw [List.foldl_cons, ih]
      exact (hrouter _ l.src).trans (hrouter _ l.dst)

/-- Nothing is sent while the map file is read. -/
theorem sent_lines (lines : List (MapLine T))
    (h : ∀ a r, s.routers a = some r → r.sent = []) :
    ∀ a r, (lines.foldl addLine s).routers a = some r → r.sent = [] := by
  induction lines generalizing s with
  | nil => exact h
  | cons l lines ih =>
      exact ih (forall_addLine l (fun _ ↦ rfl) (fun _ _ _ _ _ _ hsent ↦ hsent) h)

theorem isSome_lines (lines : List (MapLine T)) (s : Simulator T) (a : Nat) :
    ((lines.foldl addLine s).routers a).isSome = true ↔
      (s.routers a).isSome = true ∨ a ∈ mapNodes lines := by
  induction lines generalizing s with
  | nil => exact ⟨.inl, fun h ↦ h.resolve_right List.not_mem_nil⟩
  | cons l lines ih =>
      rw [List.foldl_cons, ih, isSome_addLine, or_assoc]
      simp [mapNodes, or_assoc]

theorem link_lines (lines : List (MapLine T)) (s : Simulator T) (a b : Nat) :
    (lines.foldl addLine s).Link a b ↔
      s.Link a b ∨ (∃ l ∈ lines, l.src = a ∧ l.dst = b) ∨ ∃ l ∈ lines, l.src = b ∧ l.dst = a := by
  induction lines generalizing s with
  | nil => simp
  | cons l lines ih =>
      rw [List.foldl_cons, ih, link_addLine]
      simp only [List.exists_mem_cons_iff]
      grind

/-- The graph of the routers is the one that the lines describe. -/
theorem graph_lines (nodes : UInt32 × UInt16 → Option Nat) (lines : List (MapLine T)) :
    (lines.foldl addLine (blank nodes)).graph = mapGraph lines := by
  ext a b
  have hnone : ¬ (blank (T := T) nodes).Link a b := Bool.false_ne_true
  rw [(wired_lines (wired_blank nodes) lines).adj_iff, link_lines, mapGraph,
    SimpleGraph.fromRel_adj]
  exact and_congr_right fun _ ↦ ⟨fun h ↦ h.resolve_left hnone, .inr⟩

theorem mem_ids_lines (nodes : UInt32 × UInt16 → Option Nat) (lines : List (MapLine T)) (a : Nat) :
    a ∈ (lines.foldl addLine (blank nodes)).ids ↔ a ∈ mapNodes lines := by
  rw [(wired_lines (wired_blank nodes) lines).mem_ids, isSome_lines]
  exact ⟨fun h ↦ h.resolve_left Bool.false_ne_true, .inr⟩

/-- Every queue comes from a line, and is empty. -/
theorem queueAt_lines {q : NSQueue T} (lines : List (MapLine T)) (s : Simulator T) (a b : Nat)
    (h : (lines.foldl addLine s).queueAt a b = some q) :
    s.queueAt a b = some q ∨ ∃ l ∈ lines, q = .new l.rate l.latency l.max := by
  induction lines generalizing s with
  | nil => exact .inl h
  | cons l lines ih =>
      rcases ih (s.addLine l) h with h | ⟨l', hl', hq⟩
      · rw [queueAt_addLine] at h
        split at h
        · exact .inr ⟨l, List.mem_cons_self, (Option.some.inj h).symm⟩
        · exact .inl h
      · exact .inr ⟨l', List.mem_cons_of_mem _ hl', hq⟩

end Simulator

end BitTorrent
