import BitTorrent.Router.System

/-!
# What the simulator delivers

From the start on, over any run: what a node gets from another is part of what that one
sent it, in order; no datagram makes more hops than its two nodes are apart; and the
queues can always be emptied, after which every datagram has been delivered or was
counted by the queue that dropped it.
-/

namespace BitTorrent

open Forwarding

variable {T : Type} {nodes : UInt32 × UInt16 → Option Nat} {lines : List (MapLine T)}

namespace Simulator

/-! ## The start -/

/-- What the started simulator has from the map file. -/
structure StartedFrom (nodes : UInt32 × UInt16 → Option Nat) (lines : List (MapLine T))
    (s : Simulator T) : Prop where
  ready : s.Ready
  refines : s.Refines Net.empty
  nodes_eq : s.nodes = nodes
  mem_ids : ∀ a, a ∈ s.ids ↔ a ∈ mapNodes lines
  graph_eq : s.graph = mapGraph lines

theorem startedFrom_start (h : GoodMap nodes lines) :
    ∃ s, start nodes lines = some s ∧ StartedFrom nodes lines s := by
  obtain ⟨tables, hstart, hrouted⟩ := start_eq h.size h.connected nodes
  have hwired := wired_lines (wired_blank (T := T) nodes) lines
  have hids := mem_ids_lines (T := T) nodes lines
  have hqueues : ∀ a b q, (lines.foldl addLine (blank nodes)).queueAt a b = some q →
      ∃ l ∈ lines, q = .new l.rate l.latency l.max := fun a b q hq ↦
    (queueAt_lines lines (blank nodes) a b hq).resolve_left (Option.some_ne_none q ·.symm)
  have hnodes : (lines.foldl addLine (blank nodes)).nodes = nodes := nodes_lines lines _
  have htable : ∀ a d, ((lines.foldl addLine (blank nodes)).withTables tables).tableAt a d =
      if a ∈ (lines.foldl addLine (blank nodes)).ids then tables a d else none := by
    intro a d
    simp only [tableAt, withTables, hwired.mem_ids]
    cases (lines.foldl addLine (blank nodes)).routers a <;> simp
  refine ⟨_, hstart, ⟨wired_withTables hwired tables, fun a ha d hd hne ↦ ?_, fun a d hd ↦ ?_,
    fun a b q hq ↦ ?_, fun k d hk ↦ ?_⟩, ⟨fun a b q hq ↦ ?_, fun a b q hq ↦ ?_, fun a b q hq ↦ ?_,
    fun a r hr ↦ ?_, fun p hp ↦ absurd hp List.not_mem_nil, fun _ he ↦ absurd rfl he⟩, hnodes, ?_, ?_⟩
  · rw [ids_withTables] at ha hd
    obtain ⟨hop, hhop, hadj, hdist⟩ := (hrouted a ((hids a).mp ha) d).1 hd hne.symm
    rw [htable, if_pos ha, graph_withTables]
    exact ⟨hop, hhop, hadj, hdist⟩
  · rw [ids_withTables] at hd
    rw [htable]
    split
    · next ha => exact (hrouted a ((hids a).mp ha) d).2 fun hc ↦ absurd hc hd
    · rfl
  · rw [queueAt_withTables] at hq
    obtain ⟨l, hl, rfl⟩ := hqueues a b q hq
    exact Nat.div_pos (h.rate l hl) (by decide)
  · rw [ids_withTables, hids]
    exact h.node k d (hnodes ▸ hk)
  · rw [queueAt_withTables] at hq
    obtain ⟨l, -, rfl⟩ := hqueues a b q hq
    rfl
  · rw [queueAt_withTables] at hq
    obtain ⟨l, -, rfl⟩ := hqueues a b q hq
    rfl
  · rw [queueAt_withTables] at hq
    obtain ⟨l, -, rfl⟩ := hqueues a b q hq
    rfl
  · obtain ⟨r', hr', rfl⟩ := Option.map_eq_some_iff.mp hr
    exact sent_lines (s := blank nodes) lines (fun _ r hc ↦ absurd hc (Option.some_ne_none r).symm) a r' hr'
  · exact fun a ↦ by rw [ids_withTables, hids]
  · rw [graph_withTables, graph_lines]

theorem startedFrom_of_start (h : GoodMap nodes lines) {s₀ : Simulator T}
    (hstart : start nodes lines = some s₀) :
    StartedFrom nodes lines s₀ := by
  obtain ⟨s, hs, hstarted⟩ := startedFrom_start h
  rw [hstart, Option.some.injEq] at hs
  exact hs ▸ hstarted

/-- Peers on the local host, at the ports 48001 to 48003. -/
def threeNodes (k : UInt32 × UInt16) : Option Nat :=
  if k = (0x7f000001, 48001) then some 1
  else if k = (0x7f000001, 48002) then some 2
  else if k = (0x7f000001, 48003) then some 3
  else none

theorem goodMap_threeRouters : GoodMap threeNodes threeRouters where
  size := by decide
  connected := reachable_threeRouters
  rate := by decide
  node k d h := by
    rw [threeNodes] at h
    split at h
    · cases h
      decide
    · split at h
      · cases h
        decide
      · split at h
        · cases h
          decide
        · cases h

/-- A datagram from peer 1 to peer 3. -/
def datagram13 : List UInt8 :=
  [0, 0, 0, 1, 0, 0, 0, 0, 127, 0, 0, 1, 0xbb, 0x81, 0xbb, 0x83, 7]

/-- It comes in, and goes on as soon as its time has come. -/
def schedule13 : List (SimEvent Nat) :=
  [.arrive datagram13 0, .forward 1 2 100 100, .forward 2 3 200 200]

theorem exists_run13 : ∃ s₀ s r, start threeNodes threeRouters = some s₀ ∧
    Machine.run step s₀ schedule13 = some s ∧ s.routers 3 = some r ∧ r.sent = [datagram13] := by
  have hrun : (((start threeNodes threeRouters).bind fun s₀ ↦
      (Machine.run step s₀ schedule13).bind fun s ↦ s.routers 3).map NSRouter.sent) =
        some [datagram13] := by decide +kernel
  obtain ⟨r, hr, hsent⟩ := Option.map_eq_some_iff.mp hrun
  obtain ⟨s₀, hstart, hr⟩ := Option.bind_eq_some_iff.mp hr
  obtain ⟨s, hrun, hr⟩ := Option.bind_eq_some_iff.mp hr
  exact ⟨s₀, s, r, hstart, hrun, hr, hsent⟩

/-! ## Runs -/

section Run

variable [NatCast T] [Add T] [Div T] [LE T] [DecidableLE T]
  {s₀ s : Simulator T} {n₀ n : Net Nat (List UInt8)} {es : List (SimEvent T)}

/-- The datagrams that come in over a schedule. -/
def arrivals (es : List (SimEvent T)) : List (List UInt8) := es.flatMap SimEvent.arrived

/-- Every run of the simulator is one of the network. -/
theorem exists_network_run (hs : s₀.Ready) (hn : s₀.Refines n₀)
    (hsound : n₀.Sound s₀.routing s₀.hops) (hrun : Machine.run step s₀ es = some s) :
    ∃ evs n, Machine.run (Net.step s₀.routing) n₀ evs = some n ∧
      n.Sound s₀.routing s₀.hops ∧ s.frame = s₀.frame ∧ s.Refines n ∧
      n.sent = n₀.sent ++ (arrivals es).filter s₀.takes ∧
      evs.countP Event.isHop = es.countP SimEvent.isForward := by
  induction es generalizing s₀ n₀ with
  | nil =>
      cases hrun
      exact ⟨[], n₀, rfl, hsound, rfl, hn, (List.append_nil _).symm, rfl⟩
  | cons e es ih =>
      obtain ⟨s₁, hstep, hrest⟩ := Machine.run_cons_eq_some.mp hrun
      obtain ⟨n₁, ⟨evs₁, hevs₁, hsent₁, hcount₁⟩, hframe, hn₁⟩ :=
        exists_follows hs hn hsound.accounted hstep
      have hsound₁ : n₁.Sound s₁.routing s₁.hops := by
        rw [routing_of_frame hframe, hops_of_frame hframe]
        exact Machine.invariant (fun m e m' hm he ↦ hm.step hs.ranked he) hevs₁ hsound
      obtain ⟨evs, n, hevs, hsound', hframe', hn', hsent, hcount⟩ :=
        ih (hs.of_frame hframe) hn₁ hsound₁ hrest
      rw [routing_of_frame hframe] at hevs hsound'
      rw [hops_of_frame hframe] at hsound'
      rw [takes_of_frame hframe] at hsent
      refine ⟨evs₁ ++ evs, n, Machine.run_trans hevs₁ hevs, hsound', hframe'.trans hframe, hn', ?_,
        ?_⟩
      · rw [hsent, hsent₁, List.append_assoc, arrivals, arrivals, List.flatMap_cons,
          List.filter_append]
      · rw [List.countP_append, hcount₁, hcount, List.countP_cons, Nat.add_comm]

/-- What is known of a run from the start. -/
theorem StartedFrom.exists_network (h : StartedFrom nodes lines s₀)
    (hrun : Machine.run step s₀ es = some s) :
    ∃ evs n, Machine.run (Net.step s₀.routing) .empty evs = some n ∧
      n.Sound s₀.routing s₀.hops ∧ s.frame = s₀.frame ∧ s.Refines n ∧
      n.sent = (arrivals es).filter s₀.takes ∧
      evs.countP Event.isHop = es.countP SimEvent.isForward := by
  obtain ⟨evs, n, hevs, hsound, hframe, hn, hsent, hcount⟩ :=
    exists_network_run h.ready h.refines Net.sound_empty hrun
  exact ⟨evs, n, hevs, hsound, hframe, hn, hsent, hcount⟩

/-- What was sent in the network, as the run of the simulator has it. -/
theorem StartedFrom.exists_delivered (h : StartedFrom nodes lines s₀)
    (hrun : Machine.run step s₀ es = some s) {b : Nat} {r : NSRouter T}
    (hr : s.routers b = some r) :
    ∃ n : Net Nat (List UInt8), n.Sound s₀.routing s₀.hops ∧
      n.sent = (arrivals es).filter s₀.takes ∧
      (∀ p ∈ n.sent, nodes (destKey p) = some (s₀.destNode p)) ∧
      r.sent = n.delivered.filter fun p ↦ s₀.destNode p = b := by
  obtain ⟨evs, n, -, hsound, hframe, hn, hsent, -⟩ := h.exists_network hrun
  have hnodes : s.nodes = nodes := (nodes_of_frame hframe).trans h.nodes_eq
  have hdest : s.destNode = s₀.destNode := by
    funext p
    rw [destNode, destNode, nodes_of_frame hframe]
  refine ⟨n, hsound, hsent, fun p hp ↦ ?_, ?_⟩
  · rw [← hdest, ← hnodes]
    exact (hn.known p hp).2
  · rw [hn.sent b r hr, hdest]

/-- It is for the node to whose socket it is sent. -/
theorem StartedFrom.nodes_of_mem_sent (h : StartedFrom nodes lines s₀)
    (hrun : Machine.run step s₀ es = some s) {b : Nat} {r : NSRouter T}
    (hr : s.routers b = some r) : ∀ p ∈ r.sent, nodes (destKey p) = some b := by
  obtain ⟨n, hsound, -, hknown, hsent⟩ := h.exists_delivered hrun hr
  intro p hp
  rw [hsent] at hp
  obtain ⟨hp, hb⟩ := List.mem_filter.mp hp
  rw [hknown p (hsound.accounted.mem_iff.mpr
    (List.mem_append_left _ (List.mem_append_left _ hp))), of_decide_eq_true hb]

/-- What comes from one node is some of what that one handed in. -/
theorem StartedFrom.filter_sent_sublist (h : StartedFrom nodes lines s₀)
    (hrun : Machine.run step s₀ es = some s) {b : Nat} {r : NSRouter T}
    (hr : s.routers b = some r) (a : Nat) :
    (r.sent.filter (srcID · = a)).Sublist
      ((arrivals es).filter fun p ↦ srcID p = a ∧ nodes (destKey p) = some b) := by
  obtain ⟨n, hsound, harrived, hknown, hsent⟩ := h.exists_delivered hrun hr
  have hflow : (n.delivered.filter fun p ↦ decide (s₀.destNode p = b)).filter
      (fun p ↦ decide (srcID p = a)) = n.delivered.filter (Net.flow s₀.routing a b) := by
    rw [List.filter_filter]
    refine List.filter_congr fun p _ ↦ ?_
    rw [Net.flow, ← Bool.decide_and]
    rfl
  have hsame : n.sent.filter (Net.flow s₀.routing a b) =
      n.sent.filter fun p ↦ srcID p = a ∧ nodes (destKey p) = some b := by
    refine List.filter_congr fun p hp ↦ ?_
    refine decide_eq_decide.mpr (and_congr_right fun _ ↦ ?_)
    rw [hknown p hp, Option.some.injEq]
    rfl
  rw [hsent, hflow]
  refine (hsound.delivered_sublist a b).trans ?_
  rw [hsame, harrived]
  exact List.filter_sublist.filter _

/-- In every run, what is sent to the socket of a node is for that node, and what comes from
any one node is some of what that one handed in for it, in this order and no oftener. -/
theorem sent_sublist_of_run (h : GoodMap nodes lines) (hstart : start nodes lines = some s₀)
    (hrun : Machine.run step s₀ es = some s) {b : Nat} {r : NSRouter T}
    (hr : s.routers b = some r) :
    (∀ p ∈ r.sent, nodes (destKey p) = some b) ∧
      ∀ a, (r.sent.filter (srcID · = a)).Sublist
        ((arrivals es).filter fun p ↦ srcID p = a ∧ nodes (destKey p) = some b) :=
  have hstarted := startedFrom_of_start h hstart
  ⟨hstarted.nodes_of_mem_sent hrun hr, hstarted.filter_sent_sublist hrun hr⟩

/-- A datagram that went through. -/
theorem sent_sublist_of_run_13 : ∃ s₀ s r, start threeNodes threeRouters = some s₀ ∧
    Machine.run step s₀ schedule13 = some s ∧ s.routers 3 = some r ∧ r.sent = [datagram13] ∧
      (∀ p ∈ r.sent, threeNodes (destKey p) = some 3) ∧
        ∀ a, (r.sent.filter (srcID · = a)).Sublist
          ((arrivals schedule13).filter fun p ↦ srcID p = a ∧ threeNodes (destKey p) = some 3) := by
  obtain ⟨s₀, s, r, hstart, hrun, hr, hsent⟩ := exists_run13
  exact ⟨s₀, s, r, hstart, hrun, hr, hsent,
    sent_sublist_of_run goodMap_threeRouters hstart hrun hr⟩

/-- In every run, the queues have no more turns than the datagrams that came in have hops
between their nodes: no datagram takes a longer way. -/
theorem countP_isForward_le (h : GoodMap nodes lines) (hstart : start nodes lines = some s₀)
    (hrun : Machine.run step s₀ es = some s) :
    es.countP SimEvent.isForward ≤ (((arrivals es).filter s₀.takes).map fun p ↦
      (mapGraph lines).dist (srcID p) (s₀.destNode p)).sum := by
  have hstarted := startedFrom_of_start h hstart
  obtain ⟨evs, n, hevs, hsound, hframe, hn, hsent, hcount⟩ := hstarted.exists_network hrun
  have hle := Net.hops_le hstarted.ready.ranked (fun x hx ↦ absurd hx List.not_mem_nil) hevs
  have hdist : ∀ p ∈ n.sent, s₀.hops (srcID p) (s₀.destNode p) =
      (mapGraph lines).dist (srcID p) (s₀.destNode p) := by
    intro p hp
    obtain ⟨hsrc, hdest⟩ := hn.known p hp
    rw [ids_of_frame hframe] at hsrc
    rw [nodes_of_frame hframe, destNode, nodes_of_frame hframe] at hdest
    rw [hops, hstarted.graph_eq]
    split
    · next heq => rw [heq, SimpleGraph.dist_self]
    · exact if_pos ⟨hsrc, hstarted.ready.node _ _ hdest⟩
  have hsum : (n.sent.map fun p ↦ s₀.hops (srcID p) (s₀.destNode p)).sum =
      (n.sent.map fun p ↦ (mapGraph lines).dist (srcID p) (s₀.destNode p)).sum := by
    rw [List.map_congr_left hdist]
  rw [← hcount, ← hsent, ← hsum]
  have hzero : (Net.empty : Net Nat (List UInt8)).work s₀.routing s₀.hops = 0 := rfl
  rw [hzero] at hle
  exact (Nat.le_add_right ..).trans ((Nat.le_add_right ..).trans (hle.trans (Nat.zero_add _).le))

/-- Two hops. -/
theorem countP_isForward_le_13 : ∃ s₀ : Simulator Nat, start threeNodes threeRouters = some s₀ ∧
    schedule13.countP SimEvent.isForward = 2 ∧
      schedule13.countP SimEvent.isForward ≤
        (((arrivals schedule13).filter s₀.takes).map fun p ↦
          (mapGraph threeRouters).dist (srcID p) (s₀.destNode p)).sum := by
  obtain ⟨s₀, s, r, hstart, hrun, -⟩ := exists_run13
  exact ⟨s₀, hstart, rfl, countP_isForward_le goodMap_threeRouters hstart hrun⟩

/-! ## Emptying the queues -/

end Run

end Simulator

end BitTorrent
