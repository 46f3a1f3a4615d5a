import BitTorrent.Download.System
import BitTorrent.Upload.Serving

/-!
# Two peers

A peer that serves, a peer that downloads, and the network between them, over any
number of transfers.  The network may lose, duplicate, delay and reorder every
packet between the two.  Both also talk to other peers, whose packets may be
anything.

A packet in flight carries a number that no handler reads.  A DATA packet has the
upload that sent it; a GET has its place among the requests, and an ACK the place
of the request whose receiver sent it.  The requests and, for each upload, the
request it answers are history too.
-/

namespace BitTorrent

variable {F : Type} [NatCast F] [Add F] [Div F] [LE F] [DecidableLE F] [TruncU32 F]

/-- The two ends: how each knows the other, the hash function, and the chunk the
serving peer's files hold for a hash. -/
structure Ends where
  serving : PeerRef
  downloading : PeerRef
  shahash : List UInt8 → List UInt8
  getDataChunk : List UInt8 → ChunkData

/-- The content a GET asks for. -/
def Ends.content (π : Ends) (g : Packet) : ChunkData := π.getDataChunk (g.data.take sha1HashSize)

/-- Both peers, the packets in flight between them, and the history of their
requests. -/
structure Link (F : Type) where
  client : Client
  server : Server F
  gets : List (Nat × Packet)
  data : List (SenderRef × Packet)
  acks : List (Nat × Packet)
  requests : List Packet
  answers : SenderRef → Nat

/-- What can happen at the two peers and between them. -/
inductive LinkEvent where
  | lookAt
  /-- An IHAVE packet arrives, from any peer. -/
  | ihave (pkt : Packet) (peer : Option PeerRef)
  /-- A DATA packet of another peer arrives at the downloading one. -/
  | otherData (pkt : Packet) (peer : PeerRef)
  /-- A GET packet of another peer arrives at the serving one. -/
  | otherGet (pkt : Packet) (peer : PeerRef)
  /-- An ACK packet of another peer arrives at the serving one. -/
  | otherAck (pkt : Packet) (peer : PeerRef)
  /-- A thread of upload `i` makes a step. -/
  | thread (i : SenderRef) (e : SendEvent)
  | deliverGet (m : Nat × Packet)
  | deliverData (m : SenderRef × Packet)
  | deliverAck (m : Nat × Packet)
  /-- The network turns the packets in flight into others among them. -/
  | network (gets : List (Nat × Packet)) (data : List (SenderRef × Packet))
      (acks : List (Nat × Packet))

namespace Link

/-- A downloading peer with the lines of its chunk file, and a serving peer. -/
def start (maxDown : Int) (lines : List (Int × List UInt8)) (maxUp : Int) : Link F where
  client := .start maxDown lines
  server := { senders := [], pool := .init maxUp }
  gets := []
  data := []
  acks := []
  requests := []
  answers := fun _ ↦ 0

/-- The GETs `look_at` would send to the serving peer. -/
def asks (π : Ends) (l : Link F) : List Packet :=
  (l.client.lookAt.2.filter fun m ↦ m.1 = π.serving).map Prod.snd

/-- The packets a step of upload `i` sends to the downloading peer. -/
def sends (π : Ends) (l : Link F) (i : SenderRef) : SendEvent → List Packet
  | .iterate =>
      match l.server.upload i with
      | some s => if s.sdr.pReceiver = some π.downloading then s.iterate.2 else []
      | none => []
  | _ => []

/-- The steps of the two peers and the network. -/
def step (π : Ends) (l : Link F) : LinkEvent → Option (Link F)
  | .lookAt => some
      { l with
        client := l.client.lookAt.1
        gets := (l.asks π).map (fun g ↦ (l.requests.length, g)) ++ l.gets
        requests := l.requests ++ l.asks π }
  | .ihave pkt peer => (l.client.processIHAVE pkt peer).map fun c ↦ { l with client := c }
  | .otherData pkt peer =>
      if peer ≠ π.serving then
        (l.client.processDATA π.shahash pkt (some peer)).map fun (c, _) ↦ { l with client := c }
      else none
  | .otherGet pkt peer =>
      if peer ≠ π.downloading then
        some { l with server := (l.server.processGET π.getDataChunk pkt (some peer)).1 }
      else none
  | .otherAck pkt peer =>
      if peer ≠ π.downloading then
        some { l with server := l.server.processACK pkt (some peer) }
      else none
  | .thread _ (.ack _) => none
  | .thread i e => (l.server.thread i e).map fun srv ↦
      { l with server := srv, data := (l.sends π i e).map (fun pkt ↦ (i, pkt)) ++ l.data }
  | .deliverGet m =>
      if m ∈ l.gets then some
        { l with
          server := (l.server.processGET π.getDataChunk m.2 (some π.downloading)).1
          gets := l.gets.erase m
          -- the place of the upload that this opens, if it opens one
          answers := Function.update l.answers l.server.senders.length m.1 }
      else none
  | .deliverData m =>
      if m ∈ l.data then
        (l.client.processDATA π.shahash m.2 (some π.serving)).map fun (c, replies) ↦
          { l with
            client := c
            data := l.data.erase m
            acks := replies.map (fun pkt ↦ (l.requests.length - 1, pkt)) ++ l.acks }
      else none
  | .deliverAck m =>
      if m ∈ l.acks then some
        { l with
          server := l.server.processACK m.2 (some π.downloading)
          acks := l.acks.erase m }
      else none
  | .network gets data acks =>
      if gets ⊆ l.gets ∧ data ⊆ l.data ∧ acks ⊆ l.acks then
        some { l with gets := gets, data := data, acks := acks }
      else none

variable {π : Ends} {l l' : Link F}

/-! ## What can happen -/

/-- The kinds of steps, as far as the transfers between the two peers are
concerned. -/
inductive Change (π : Ends) (l : Link F) : LinkEvent → Link F → Prop
  /-- The downloading peer does something that is not for the serving one. -/
  | elsewhere {f e c} : l.client.step π.shahash e = some c →
      getReceiver c.receiverPool (some π.serving) =
        getReceiver l.client.receiverPool (some π.serving) →
      Change π l f { l with client := c }
  /-- It attaches a receiver to a chunk and asks the serving peer for it. -/
  | opens {down c} : l.client.step π.shahash .lookAt = some c →
      getReceiver c.receiverPool (some π.serving) = some (newReceiver π.serving down) →
      l.asks π ≠ [] → Change π l .lookAt
        { l with
          client := c
          gets := (l.requests.length, l.client.getPKT down) :: l.gets
          requests := l.requests ++ [l.client.getPKT down] }
  /-- The serving peer does something that is not for the downloading one. -/
  | serves {f srv} : l.server.Apart π.downloading srv → Change π l f { l with server := srv }
  | thread {i e srv} : (∀ n, e ≠ .ack n) → l.server.thread i e = some srv →
      Change π l (.thread i e)
        { l with server := srv, data := (l.sends π i e).map (fun pkt ↦ (i, pkt)) ++ l.data }
  | requested {m} : m ∈ l.gets → Change π l (.deliverGet m)
      { l with
        server := (l.server.processGET π.getDataChunk m.2 (some π.downloading)).1
        gets := l.gets.erase m
        answers := Function.update l.answers l.server.senders.length m.1 }
  | arrives {m c replies} : m ∈ l.data →
      l.client.processDATA π.shahash m.2 (some π.serving) = some (c, replies) →
      Change π l (.deliverData m)
        { l with
          client := c
          data := l.data.erase m
          acks := replies.map (fun pkt ↦ (l.requests.length - 1, pkt)) ++ l.acks }
  | acked {m} : m ∈ l.acks → Change π l (.deliverAck m)
      { l with
        server := l.server.processACK m.2 (some π.downloading)
        acks := l.acks.erase m }
  | network {gets data acks} : gets ⊆ l.gets → data ⊆ l.data → acks ⊆ l.acks →
      Change π l (.network gets data acks) { l with gets := gets, data := data, acks := acks }

/-- `look_at` asks the serving peer for a chunk, or has nothing to do with it. -/
theorem lookAt_change (π : Ends) (h : l.client.receiverPool.Ok) :
    l.Change π .lookAt
      { l with
        client := l.client.lookAt.1
        gets := (l.asks π).map (fun g ↦ (l.requests.length, g)) ++ l.gets
        requests := l.requests ++ l.asks π } := by
  rcases Client.receivers_lookAt h with ⟨hsent, hsame⟩ | ⟨p, down, hsent, hreceivers⟩
  · have hasks : l.asks π = [] := by rw [asks, hsent]; rfl
    rw [hasks, List.append_nil]
    refine .elsewhere (e := .lookAt) rfl ?_
    rw [hsame]
  · have hget := hreceivers π.serving
    by_cases hp : p = π.serving
    · have hasks : l.asks π = [l.client.getPKT down] := by
        simp only [asks, hsent, hp, decide_true, List.filter_cons_of_pos, List.filter_nil,
          List.map_cons, List.map_nil]
      rw [if_pos hp, hp] at hget
      have hopen := Change.opens (π := π) (l := l) rfl hget (hasks ▸ List.cons_ne_nil _ _)
      rw [hasks]
      exact hopen
    · have hasks : l.asks π = [] := by
        simp only [asks, hsent, hp, decide_false, Bool.false_eq_true, not_false_eq_true,
          List.filter_cons_of_neg, List.filter_nil, List.map_nil]
      rw [if_neg hp] at hget
      rw [hasks, List.append_nil]
      exact .elsewhere (e := .lookAt) rfl hget

theorem step_cases {e : LinkEvent} (hclient : l.client.receiverPool.Ok) (hserver : l.server.Ok)
    (h : l.step π e = some l') : l.Change π e l' := by
  cases e with
  | lookAt =>
      cases h
      exact lookAt_change π hclient
  | ihave pkt peer =>
      obtain ⟨c, hc, rfl⟩ := Option.map_eq_some_iff.mp h
      refine .elsewhere (e := .ihave pkt peer) hc ?_
      rw [(Client.processIHAVE_frame hc).2.2.2]
  | otherData pkt peer =>
      simp only [step, Option.ite_none_right_eq_some, Option.map_eq_some_iff] at h
      obtain ⟨hpeer, ⟨c, acks⟩, hc, rfl⟩ := h
      refine .elsewhere (e := .data pkt (some peer)) (congrArg (Option.map Prod.fst) hc) ?_
      rcases Client.processDATA_cases hclient hc with rfl | ⟨p, rcvr, r', hp, -, -, -, -, hframe, -⟩
      · rfl
      · rw [Option.some.injEq] at hp
        exact hframe.others π.serving (hp ▸ hpeer)
  | otherGet pkt peer =>
      simp only [step, Option.ite_none_right_eq_some, Option.some.injEq] at h
      obtain ⟨hpeer, rfl⟩ := h
      exact .serves (hserver.apart_processGET hpeer π.getDataChunk pkt)
  | otherAck pkt peer =>
      simp only [step, Option.ite_none_right_eq_some, Option.some.injEq] at h
      obtain ⟨hpeer, rfl⟩ := h
      exact .serves ((hserver.keeps_processACK pkt peer).apart _)
  | thread i e =>
      cases e with
      | ack n => cases h
      | _ =>
          obtain ⟨srv, hsrv, rfl⟩ := Option.map_eq_some_iff.mp h
          refine .thread ?_ hsrv
          rintro n ⟨⟩
  | deliverGet m =>
      simp only [step, Option.ite_none_right_eq_some, Option.some.injEq] at h
      obtain ⟨hm, rfl⟩ := h
      exact .requested hm
  | deliverData m =>
      simp only [step, Option.ite_none_right_eq_some, Option.map_eq_some_iff] at h
      obtain ⟨hm, ⟨c, replies⟩, hc, rfl⟩ := h
      exact .arrives hm hc
  | deliverAck m =>
      simp only [step, Option.ite_none_right_eq_some, Option.some.injEq] at h
      obtain ⟨hm, rfl⟩ := h
      exact .acked hm
  | network gets data acks =>
      simp only [step, Option.ite_none_right_eq_some, Option.some.injEq] at h
      obtain ⟨⟨hgets, hdata, hacks⟩, rfl⟩ := h
      exact .network hgets hdata hacks

end Link

end BitTorrent
