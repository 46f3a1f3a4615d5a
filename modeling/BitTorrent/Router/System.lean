import BitTorrent.Library.Forwarding
import BitTorrent.Router.Table

/-!
# The simulator as a network

The routers and their queues are a store-and-forward network whose table leads closer to
the destination with every hop: each step of the simulator is a step of that network, in
which a packet is lost where a queue was full.  So datagrams of one node for another come
out in the order in which they went in, none twice, and what is missing is what the
counters of the queues say.
-/

namespace BitTorrent

open Forwarding

variable {T : Type}

/-- The datagram that an event brings in. -/
def SimEvent.arrived : SimEvent T → List (List UInt8)
  | .arrive pkt _ => [pkt.take packetSizeMax]
  | .forward .. => []

/-- A turn of `run`. -/
def SimEvent.isForward : SimEvent T → Bool
  | .arrive .. => false
  | .forward .. => true

namespace Simulator

/-! ## What never changes -/

/-- What stays as it is while the simulator runs. -/
def frame (s : Simulator T) :
    Nat × (UInt32 × UInt16 → Option Nat) ×
      (Nat → Option (Nat × (Nat → Option Nat) × (Nat → Option Nat))) :=
  (s.count, s.nodes, fun a ↦ (s.routers a).map fun r ↦
    (r.id, r.routingTable, fun b ↦ (r.routes b).map NSQueue.rate))

section Frame

variable {s s' : Simulator T}

theorem isSome_of_frame (h : s'.frame = s.frame) (a : Nat) :
    (s'.routers a).isSome = (s.routers a).isSome := by
  have := congrArg (fun f ↦ (f.2.2 a).isSome) h
  simpa [frame] using this

theorem nodes_of_frame (h : s'.frame = s.frame) : s'.nodes = s.nodes :=
  congrArg (fun f ↦ f.2.1) h

theorem ids_of_frame (h : s'.frame = s.frame) : s'.ids = s.ids := by
  have hcount : s'.count = s.count := congrArg (fun f ↦ f.1) h
  simp only [ids, hcount, isSome_of_frame h]

theorem tableAt_of_frame (h : s'.frame = s.frame) : s'.tableAt = s.tableAt := by
  funext a d
  have := congrArg (fun f ↦ (f.2.2 a).bind fun r ↦ r.2.1 d) h
  simpa [frame, tableAt, Option.bind_map, Function.comp_def] using this

theorem rate_of_frame (h : s'.frame = s.frame) (a b : Nat) :
    (s'.queueAt a b).map NSQueue.rate = (s.queueAt a b).map NSQueue.rate := by
  have := congrArg (fun f ↦ (f.2.2 a).bind fun r ↦ r.2.2 b) h
  simpa [frame, queueAt, Option.bind_map, Option.map_bind, Function.comp_def] using this

theorem link_of_frame (h : s'.frame = s.frame) : s'.Link = s.Link := by
  funext a b
  have := congrArg Option.isSome (rate_of_frame h a b)
  rw [Option.isSome_map, Option.isSome_map] at this
  rw [Link, Link, this]

theorem graph_of_frame (h : s'.frame = s.frame) : s'.graph = s.graph := by
  rw [graph, graph, link_of_frame h]

end Frame

/-- A simulator that has started: the tables lead along shortest paths, every queue has a
rate, and every node is a router. -/
structure Ready (s : Simulator T) : Prop where
  wired : s.Wired
  routed : ∀ a ∈ s.ids, ∀ d ∈ s.ids, a ≠ d → ∃ hop, s.tableAt a d = some hop ∧
    s.graph.Adj a hop ∧ s.graph.dist hop d + 1 = s.graph.dist a d
  untabled : ∀ a d, d ∉ s.ids → s.tableAt a d = none
  rate : ∀ a b q, s.queueAt a b = some q → 0 < q.rate
  node : ∀ k d, s.nodes k = some d → d ∈ s.ids

theorem Ready.of_frame {s s' : Simulator T} (hs : s.Ready) (h : s'.frame = s.frame) :
    s'.Ready where
  wired := by
    have hcount : s'.count = s.count := congrArg (fun f ↦ f.1) h
    refine ⟨fun a r hr ↦ ?_, fun a ha ↦ ?_, fun a b hab ↦ ?_⟩
    · have hid := congrArg (fun f ↦ (f.2.2 a).map Prod.fst) h
      simp only [frame, hr, Option.map_some, Option.map_map] at hid
      obtain ⟨r', hr', heq⟩ := Option.map_eq_some_iff.mp hid.symm
      exact heq.symm.trans (hs.wired.id a r' hr')
    · rw [hcount]
      exact hs.wired.lt a ((isSome_of_frame h a).symm.trans ha)
    · rw [link_of_frame h] at hab ⊢
      exact hs.wired.symm a b hab
  routed := by
    rw [ids_of_frame h, tableAt_of_frame h, graph_of_frame h]
    exact hs.routed
  untabled := by
    rw [ids_of_frame h, tableAt_of_frame h]
    exact hs.untabled
  rate a b q hq := by
    have hrate := rate_of_frame h a b
    rw [hq, Option.map_some] at hrate
    obtain ⟨q', hq', heq⟩ := Option.map_eq_some_iff.mp hrate.symm
    exact heq ▸ hs.rate a b q' hq'
  node := by
    rw [nodes_of_frame h, ids_of_frame h]
    exact hs.node

/-! ## The network -/

/-- The node of a datagram's destination; zero where there is none. -/
def destNode (s : Simulator T) (pkt : List UInt8) : Nat := (s.nodes (destKey pkt)).getD 0

/-- The network of the simulator. -/
def routing (s : Simulator T) : Routing Nat (List UInt8) where
  src := srcID
  dest := s.destNode
  next a d := (s.tableAt a d).getD d

/-- The number of hops between two routers. -/
noncomputable def hops (s : Simulator T) (a d : Nat) : Nat :=
  if a = d then 0 else if a ∈ s.ids ∧ d ∈ s.ids then s.graph.dist a d else 1

theorem routing_of_frame {s s' : Simulator T} (h : s'.frame = s.frame) :
    s'.routing = s.routing := by
  simp only [routing, Routing.mk.injEq, true_and]
  refine ⟨?_, ?_⟩
  · funext pkt
    rw [destNode, destNode, nodes_of_frame h]
  · rw [tableAt_of_frame h]

theorem hops_of_frame {s s' : Simulator T} (h : s'.frame = s.frame) : s'.hops = s.hops := by
  funext a d
  rw [hops, hops, ids_of_frame h, graph_of_frame h]

theorem Ready.ranked {s : Simulator T} (hs : s.Ready) : s.routing.Ranked s.hops where
  self d := if_pos rfl
  next v d hv := by
    by_cases hmem : v ∈ s.ids ∧ d ∈ s.ids
    · obtain ⟨hop, htable, hadj, hdist⟩ := hs.routed v hmem.1 d hmem.2 hv
      have hhop : hop ∈ s.ids :=
        hs.wired.mem_ids_of_reachable hmem.1 hadj.reachable
      have hnext : s.routing.next v d = hop := by
        simp only [routing, htable, Option.getD_some]
      have heq : s.hops hop d = s.graph.dist hop d := by
        rw [hops]
        split
        · next h => rw [h, SimpleGraph.dist_self]
        · exact if_pos ⟨hhop, hmem.2⟩
      rw [hnext, heq, hdist, hops, if_neg hv, if_pos hmem]
    · have hnone : s.tableAt v d = none := by
        by_cases hd : d ∈ s.ids
        · have hv' : (s.routers v).isSome ≠ true := fun hc ↦
            hmem ⟨hs.wired.mem_ids.mpr hc, hd⟩
          rw [tableAt, Option.not_isSome_iff_eq_none.mp hv']
          rfl
        · exact hs.untabled v d hd
      have hnext : s.routing.next v d = d := by
        simp only [routing, hnone, Option.getD_none]
      rw [hnext, hops, hops, if_pos rfl, if_neg hv, if_neg hmem]

/-- The network is in the queues and sockets of the simulator. -/
structure Refines (s : Simulator T) (n : Net Nat (List UInt8)) : Prop where
  queue : ∀ a b q, s.queueAt a b = some q → q.queue.map Prod.fst = n.queue (a, b)
  size : ∀ a b q, s.queueAt a b = some q → q.size = (q.queue.map fun x ↦ x.1.length).sum
  dropped : ∀ a b q, s.queueAt a b = some q → q.dropped = n.lost.countP (·.1 = (a, b))
  sent : ∀ b r, s.routers b = some r → r.sent = n.delivered.filter (s.destNode · = b)
  known : ∀ p ∈ n.sent, srcID p ∈ s.ids ∧ s.nodes (destKey p) = some (s.destNode p)
  link : ∀ e, n.queue e ≠ [] → (s.queueAt e.1 e.2).isSome = true

/-! ## One step -/

section Step

variable {s s' : Simulator T} {n : Net Nat (List UInt8)} {a b v d : Nat} {pkt : List UInt8}

/-- A router that keeps its number, its table and the rates of its queues. -/
theorem frame_update {r r' : NSRouter T} (hr : s.routers a = some r) (hid : r'.id = r.id)
    (htable : r'.routingTable = r.routingTable)
    (hrate : ∀ b, (r'.routes b).map NSQueue.rate = (r.routes b).map NSQueue.rate) :
    frame { s with routers := Function.update s.routers a (some r') } = s.frame := by
  simp only [frame, Prod.mk.injEq, true_and]
  funext x
  by_cases hx : x = a
  · subst hx
    simp only [Function.update_self, hr, Option.map_some, hid, htable, hrate]
  · rw [Function.update_of_ne hx]

theorem queueAt_update (s : Simulator T) (a : Nat) (r : NSRouter T) (x y : Nat) :
    queueAt { s with routers := Function.update s.routers a (some r) } x y =
      if x = a then r.routes y else s.queueAt x y := by
  simp only [queueAt]
  by_cases hx : x = a
  · subst hx
    simp
  · simp [hx]

/-- What `enQ` does to a queue that has a rate. -/
theorem enQ_cases [NatCast T] [Add T] [Div T] {q : NSQueue T} (hrate : 0 < q.rate)
    (pkt : List UInt8) (vtime : T) :
    q.enQ pkt vtime = some { q with dropped := q.dropped + 1 } ∨
      ∃ due, q.enQ pkt vtime =
        some { q with queue := q.queue ++ [(pkt, due)], size := q.size + pkt.length } := by
  rw [NSQueue.enQ]
  split
  · exact .inl rfl
  · rw [if_neg (Nat.ne_of_gt hrate)]
    exact .inr ⟨_, rfl⟩

/-- One queue is changed, and the network in the same way. -/
theorem Refines.update_queue {n' : Net Nat (List UInt8)} (hn : s.Refines n) {r : NSRouter T}
    {q q' : NSQueue T} (hr : s.routers a = some r) (hq : r.routes b = some q)
    (hrate : q'.rate = q.rate) (hqueue : q'.queue.map Prod.fst = n'.queue (a, b))
    (hsize : q'.size = (q'.queue.map fun x ↦ x.1.length).sum)
    (hdropped : q'.dropped = n'.lost.countP (·.1 = (a, b)))
    (hother : ∀ e, e ≠ (a, b) → n'.queue e = n.queue e ∧
      n'.lost.countP (·.1 = e) = n.lost.countP (·.1 = e))
    (hdelivered : n'.delivered = n.delivered) (hsent : n'.sent = n.sent) :
    let s' := { s with
      routers := Function.update s.routers a
        (some { r with routes := Function.update r.routes b (some q') }) }
    s'.frame = s.frame ∧ s'.Refines n' := by
  intro s'
  have hframe : s'.frame = s.frame := by
    refine frame_update hr rfl rfl fun y ↦ ?_
    by_cases hy : y = b
    · subst hy
      simp only [Function.update_self, hq, Option.map_some, hrate]
    · simp only [Function.update_of_ne hy]
  have hqueues : ∀ x y q'', s'.queueAt x y = some q'' →
      (x = a ∧ y = b ∧ q'' = q') ∨ ((x, y) ≠ (a, b) ∧ s.queueAt x y = some q'') := by
    intro x y q'' h
    rw [queueAt_update] at h
    by_cases hx : x = a
    · subst hx
      rw [if_pos rfl] at h
      by_cases hy : y = b
      · subst hy
        simp only [Function.update_self, Option.some.injEq] at h
        exact .inl ⟨rfl, rfl, h.symm⟩
      · simp only [Function.update_of_ne hy] at h
        exact .inr ⟨fun hc ↦ hy (Prod.mk.inj hc).2, by rw [queueAt, hr]; exact h⟩
    · rw [if_neg hx] at h
      exact .inr ⟨fun hc ↦ hx (Prod.mk.inj hc).1, h⟩
  refine ⟨hframe, fun x y q'' h ↦ ?_, fun x y q'' h ↦ ?_, fun x y q'' h ↦ ?_, fun x r' h ↦ ?_,
    fun p hp ↦ ?_, fun e he ↦ ?_⟩
  · rcases hqueues x y q'' h with ⟨rfl, rfl, rfl⟩ | ⟨hne, h⟩
    · exact hqueue
    · rw [(hother _ hne).1]
      exact hn.queue x y q'' h
  · rcases hqueues x y q'' h with ⟨rfl, rfl, rfl⟩ | ⟨hne, h⟩
    · exact hsize
    · exact hn.size x y q'' h
  · rcases hqueues x y q'' h with ⟨rfl, rfl, rfl⟩ | ⟨hne, h⟩
    · exact hdropped
    · rw [(hother _ hne).2]
      exact hn.dropped x y q'' h
  · rw [hdelivered]
    by_cases hx : x = a
    · subst hx
      simp only [s', Function.update_self, Option.some.injEq] at h
      rw [← h]
      exact hn.sent x r hr
    · exact hn.sent x r' ((Function.update_of_ne hx ..).symm.trans h)
  · rw [ids_of_frame hframe]
    exact hn.known p (hsent ▸ hp)
  · have hrates := congrArg Option.isSome (rate_of_frame hframe e.1 e.2)
    rw [Option.isSome_map, Option.isSome_map] at hrates
    rw [hrates]
    by_cases hab : e = (a, b)
    · rw [hab, queueAt, hr, Option.bind_some, hq]
      rfl
    · exact hn.link e ((hother e hab).1 ▸ he)

/-- A router sends a datagram to its socket. -/
theorem Refines.update_sent (hn : s.Refines n) {r r' : NSRouter T} (hr : s.routers a = some r)
    (hid : r'.id = r.id) (htable : r'.routingTable = r.routingTable) (hroutes : r'.routes = r.routes)
    (hsent : r'.sent = r.sent ++ [pkt]) (hdest : s.destNode pkt = a) :
    let s' := { s with routers := Function.update s.routers a (some r') }
    s'.frame = s.frame ∧ s'.Refines { n with delivered := n.delivered ++ [pkt] } := by
  intro s'
  have hframe : s'.frame = s.frame :=
    frame_update hr hid htable fun b ↦ by rw [hroutes]
  have hqueues : ∀ x y, s'.queueAt x y = s.queueAt x y := by
    intro x y
    rw [queueAt_update]
    split
    · next h => rw [h, queueAt, hr, Option.bind_some, hroutes]
    · rfl
  refine ⟨hframe, fun x y q h ↦ ?_, fun x y q h ↦ ?_, fun x y q h ↦ ?_, fun x r'' h ↦ ?_,
    fun p hp ↦ ?_, fun e he ↦ ?_⟩
  · exact hn.queue x y q ((hqueues x y).symm.trans h)
  · exact hn.size x y q ((hqueues x y).symm.trans h)
  · exact hn.dropped x y q ((hqueues x y).symm.trans h)
  · change r''.sent = (n.delivered ++ [pkt]).filter (s.destNode · = x)
    rw [List.filter_append]
    by_cases hx : x = a
    · subst hx
      simp only [s', Function.update_self, Option.some.injEq] at h
      have hlast : [pkt].filter (s.destNode · = x) = [pkt] := by simpa using hdest
      rw [← h, hsent, ← hn.sent x r hr, hlast]
    · have hnil : [pkt].filter (s.destNode · = x) = [] := by
        simpa [hdest] using Ne.symm hx
      rw [hnil, List.append_nil]
      exact hn.sent x r'' ((Function.update_of_ne hx ..).symm.trans h)
  · rw [ids_of_frame hframe]
    exact hn.known p hp
  · rw [hqueues]
    exact hn.link e he

variable [NatCast T] [Add T] [Div T]

/-- A datagram with a known destination comes to a router: it is sent to the socket there,
or queued for the next router, or dropped. -/
theorem exists_recvAt (hs : s.Ready) (hn : s.Refines n) (hv : v ∈ s.ids)
    (hd : s.nodes (destKey pkt) = some d) (vtime : T) :
    ∃ lose s', s.recvAt v pkt vtime = some s' ∧ s'.frame = s.frame ∧
      s'.Refines (n.arrive s.routing v pkt lose) := by
  obtain ⟨r, hr⟩ := Option.isSome_iff_exists.mp (hs.wired.mem_ids.mp hv)
  have hid := hs.wired.id v r hr
  have hdest : s.routing.dest pkt = d := by
    simp only [routing, destNode, hd, Option.getD_some]
  by_cases hdv : d = v
  · subst hdv
    obtain ⟨r', hrecv, hid', htable, hroutes, hsent⟩ : ∃ r', r.recv s.nodes pkt vtime = some r' ∧
        r'.id = r.id ∧ r'.routingTable = r.routingTable ∧ r'.routes = r.routes ∧
        r'.sent = r.sent ++ [pkt] := by
      rw [NSRouter.recv, hd]
      exact ⟨_, if_pos hid.symm, rfl, rfl, rfl, rfl⟩
    have harrive : n.arrive s.routing d pkt false =
        { n with delivered := n.delivered ++ [pkt] } := if_pos hdest
    refine ⟨false, _, ?_, harrive ▸ hn.update_sent hr hid' htable hroutes hsent hdest⟩
    rw [recvAt, hr, Option.bind_eq_bind, Option.bind_some, hrecv]
    rfl
  · obtain ⟨hop, htable, hadj, -⟩ := hs.routed v hv d (hs.node _ d hd) (Ne.symm hdv)
    obtain ⟨q, hq⟩ := Option.isSome_iff_exists.mp (hs.wired.adj_iff.mp hadj).2
    have hqv := hq
    rw [queueAt, hr, Option.bind_some] at hq
    have hnext : s.routing.next v (s.routing.dest pkt) = hop := by
      rw [hdest]
      simp only [routing, htable, Option.getD_some]
    have hne : s.routing.dest pkt ≠ v := hdest.symm ▸ hdv
    rw [tableAt, hr, Option.bind_some] at htable
    have hrecv : ∀ q', q.enQ pkt vtime = some q' → s.recvAt v pkt vtime =
        some { s with
          routers := Function.update s.routers v
            (some { r with routes := Function.update r.routes hop (some q') }) } := by
      intro q' hq'
      have hmatch : r.recv s.nodes pkt vtime =
          some { r with routes := Function.update r.routes hop (some q') } := by
        have hother : d ≠ r.id := hid.symm ▸ hdv
        rw [NSRouter.recv, hd]
        simp only [if_neg hother, htable, hq, hq', Option.bind_eq_bind,
          Option.bind_some]
        rfl
      rw [recvAt, hr, Option.bind_eq_bind, Option.bind_some, hmatch]
      rfl
    rcases enQ_cases (hs.rate v hop q hqv) pkt vtime with henQ | ⟨due, henQ⟩
    · refine ⟨true, _, hrecv _ henQ, ?_⟩
      have harrive : n.arrive s.routing v pkt true =
          { n with lost := n.lost ++ [((v, hop), pkt)] } := by
        rw [Net.arrive, if_neg hne, hnext]
        rfl
      rw [harrive]
      refine hn.update_queue hr hq rfl (hn.queue v hop q hqv) (hn.size v hop q hqv) ?_
        (fun e he ↦ ⟨rfl, ?_⟩) rfl rfl
      · rw [List.countP_append, ← hn.dropped v hop q hqv]
        simp
      · rw [List.countP_append]
        simpa using he.symm
    · refine ⟨false, _, hrecv _ henQ, ?_⟩
      have harrive : n.arrive s.routing v pkt false =
          { n with transit := n.transit ++ [((v, hop), pkt)] } := by
        rw [Net.arrive, if_neg hne, hnext]
        rfl
      rw [harrive]
      refine hn.update_queue hr hq rfl ?_ ?_ (hn.dropped v hop q hqv) (fun e he ↦ ⟨?_, rfl⟩) rfl rfl
      · rw [List.map_append, hn.queue v hop q hqv, Net.queue_append, if_pos rfl]
        rfl
      · rw [List.map_append, List.sum_append, ← hn.size v hop q hqv]
        rfl
      · rw [Net.queue_append, if_neg he.symm, List.append_nil]

end Step

/-! ## What a step does to the network -/

/-- The simulator knows the router that a datagram comes from and the node it goes to. -/
def takes (s : Simulator T) (pkt : List UInt8) : Bool :=
  (s.routers (srcID pkt)).isSome && (s.nodes (destKey pkt)).isSome

theorem takes_of_frame {s s' : Simulator T} (h : s'.frame = s.frame) : s'.takes = s.takes := by
  funext pkt
  rw [takes, takes, isSome_of_frame h, nodes_of_frame h]

variable [NatCast T] [Add T] [Div T] [LE T] [DecidableLE T]

/-- The network makes the steps that an event of the simulator stands for. -/
def Follows (s : Simulator T) (e : SimEvent T) (n n' : Net Nat (List UInt8)) : Prop :=
  ∃ evs, Machine.run (Net.step s.routing) n evs = some n' ∧
    n'.sent = n.sent ++ e.arrived.filter s.takes ∧
    evs.countP Event.isHop = if e.isForward then 1 else 0

section

variable {s s' : Simulator T} {n : Net Nat (List UInt8)} {a b : Nat} {pkt : List UInt8}
  {e : SimEvent T}

/-- Every datagram is taken in: the script does not die. -/
theorem exists_arrive (hs : s.Ready) (hn : s.Refines n) (pkt : List UInt8) (now : T) :
    ∃ s' n', s.step (.arrive pkt now) = some s' ∧ s.Follows (.arrive pkt now) n n' ∧
      s'.frame = s.frame ∧ s'.Refines n' := by
  rw [step]
  by_cases hr : (s.routers (srcID (pkt.take packetSizeMax))).isSome = true
  · cases hd : s.nodes (destKey (pkt.take packetSizeMax)) with
    | none =>
        obtain ⟨r, hrouter⟩ := Option.isSome_iff_exists.mp hr
        refine ⟨s, n, ?_, ⟨[], rfl, ?_, rfl⟩, rfl, hn⟩
        · have hrecv : r.recv s.nodes (pkt.take packetSizeMax) now = some r := by
            rw [NSRouter.recv, hd]
          rw [if_pos hr, recvAt, hrouter, Option.bind_eq_bind, Option.bind_some, hrecv,
            Option.bind_some, ← hrouter, Function.update_eq_self]
          rfl
        · simp [SimEvent.arrived, takes, hd]
    | some d =>
        have hsrc := hs.wired.mem_ids.mpr hr
        have hm : s.Refines { n with sent := n.sent ++ [pkt.take packetSizeMax] } := by
          refine ⟨hn.queue, hn.size, hn.dropped, hn.sent, fun p hp ↦ ?_, hn.link⟩
          rcases List.mem_append.mp hp with hp | hp
          · exact hn.known p hp
          · rw [List.mem_singleton.mp hp, destNode, hd]
            exact ⟨hsrc, rfl⟩
        obtain ⟨lose, s', hstep, hframe, hn'⟩ := exists_recvAt hs hm hsrc hd now
        refine ⟨s', _, (if_pos hr).trans hstep, ⟨[.send (pkt.take packetSizeMax) lose],
          Machine.run_single rfl, ?_, rfl⟩, hframe, hn'⟩
        rw [Net.sent_arrive]
        simp [SimEvent.arrived, takes, hr, hd]
  · refine ⟨s, n, if_neg hr, ⟨[], rfl, ?_, rfl⟩, rfl, hn⟩
    simp [SimEvent.arrived, takes, hr]

/-- A packet that is due goes on. -/
theorem exists_forward (hs : s.Ready) (hn : s.Refines n) (hacc : n.Accounted) {q : NSQueue T}
    {due now : T} {rest : List (List UInt8 × T)} (hq : s.queueAt a b = some q)
    (hqueue : q.queue = (pkt, due) :: rest) (hdue : due ≤ now) (later : T) :
    ∃ s' n', s.step (.forward a b now later) = some s' ∧
      s.Follows (.forward a b now later) n n' ∧ s'.frame = s.frame ∧ s'.Refines n' := by
  obtain ⟨r, hr, hroute⟩ := Option.bind_eq_some_iff.mp hq
  have hlink : s.Link a b := by rw [Link, hq]; rfl
  have hb := hs.wired.mem_ids_of_link (hs.wired.symm a b hlink)
  have hhead : n.queue (a, b) = pkt :: rest.map Prod.fst := by
    rw [← hn.queue a b q hq, hqueue, List.map_cons]
  have hpop := Net.queue_pop hhead
  obtain ⟨l, t, htransit, -, -⟩ := Net.exists_of_queue_eq hhead
  have hsent : pkt ∈ n.sent := by
    refine hacc.mem_iff.mpr (List.mem_append_right _ (List.mem_map.mpr ⟨((a, b), pkt), ?_, rfl⟩))
    rw [htransit]
    exact List.mem_append_right _ List.mem_cons_self
  let q' : NSQueue T := { q with queue := rest, size := q.size - pkt.length }
  have hrest : q'.queue.map Prod.fst = (n.pop (a, b)).queue (a, b) := by
    have hself := hpop (a, b)
    rw [if_pos rfl, hhead] at hself
    exact (List.cons.inj hself).2
  have hsize : q'.size = (q'.queue.map fun x ↦ x.1.length).sum := by
    have hold := hn.size a b q hq
    rw [hqueue, List.map_cons, List.sum_cons] at hold
    simp only [q', hold, Nat.add_sub_cancel_left]
  have hdropped : q'.dropped = (n.pop (a, b)).lost.countP (·.1 = (a, b)) := hn.dropped a b q hq
  obtain ⟨hframe, hm⟩ := hn.update_queue hr hroute
    (show q'.rate = q.rate from rfl) hrest hsize hdropped
    (fun e he ↦ ⟨by rw [hpop e, if_neg he.symm, List.nil_append], rfl⟩) rfl rfl
  obtain ⟨lose, s', hstep, hframe', hn'⟩ := exists_recvAt (hs.of_frame hframe) hm
    (by rwa [ids_of_frame hframe]) (hn.known pkt hsent).2 later
  rw [routing_of_frame hframe] at hn'
  refine ⟨s', _, ?_, ⟨[.hop (a, b) lose], Machine.run_single ?_, ?_, rfl⟩, hframe'.trans hframe,
    hn'⟩
  · have hshift : q.shiftDue now = some (pkt, q') := by
      rw [NSQueue.shiftDue, hqueue]
      exact if_pos hdue
    simp only [step, hr, hroute, hshift, Option.bind_eq_bind, Option.bind_some]
    exact hstep
  · rw [Net.step, hhead]
  · rw [Net.sent_arrive]
    exact (List.append_nil _).symm

/-- Only a queue whose first packet is due has a turn. -/
theorem of_forward {now later : T} (h : s.step (.forward a b now later) = some s') :
    ∃ q pkt due rest, s.queueAt a b = some q ∧ q.queue = (pkt, due) :: rest ∧ due ≤ now := by
  simp only [step, Option.bind_eq_bind, Option.bind_eq_some_iff] at h
  obtain ⟨r, hr, q, hq, x, hx, -⟩ := h
  rw [NSQueue.shiftDue] at hx
  split at hx
  · cases hx
  · next pkt due rest hqueue =>
      rw [Option.ite_none_right_eq_some] at hx
      exact ⟨q, pkt, due, rest, Option.bind_eq_some_iff.mpr ⟨r, hr, hq⟩, hqueue, hx.1⟩

/-- Every step of the simulator is one of the network. -/
theorem exists_follows (hs : s.Ready) (hn : s.Refines n) (hacc : n.Accounted)
    (hstep : s.step e = some s') :
    ∃ n', s.Follows e n n' ∧ s'.frame = s.frame ∧ s'.Refines n' := by
  cases e with
  | arrive pkt now =>
      obtain ⟨s'', n', heq, h⟩ := exists_arrive hs hn pkt now
      rw [hstep, Option.some.injEq] at heq
      exact ⟨n', heq ▸ h⟩
  | forward a b now later =>
      obtain ⟨q, pkt, due, rest, hq, hqueue, hdue⟩ := of_forward hstep
      obtain ⟨s'', n', heq, h⟩ := exists_forward hs hn hacc hq hqueue hdue later
      rw [hstep, Option.some.injEq] at heq
      exact ⟨n', heq ▸ h⟩

end

end Simulator

end BitTorrent
