import BitTorrent.Peer.System

/-!
# The two pools of a peer

Whatever configured peers send, both pools count their workers, keep within
`max_conn`, and hold at most one worker for each peer.  The callers see to the last
point: `process_GET` and `look_at` add a worker only for a peer that has none.
-/

namespace BitTorrent

set_option linter.unusedSectionVars false

variable {F : Type} [NatCast F] [Add F] [Div F] [LE F] [DecidableLE F] [TruncU32 F]

/-! ## The sender pool -/

namespace Server

variable {srv : Server F} {max : Int} {p : PeerRef} {peer : Option PeerRef} {pkt : Packet}

theorem within_processACK (h : srv.pool.Within max) (pkt : Packet) (peer : Option PeerRef) :
    (srv.processACK pkt peer).pool.Within max := by
  rw [processACK]
  split
  · exact h
  · split
    · exact h
    · dsimp only
      split
      · exact h.remove _
      · exact h

/-- The pool after `process_GET` has looked for an upload of the same peer: one that is
fully sent is dropped. -/
def dropSent (srv : Server F) (peer : Option PeerRef) : Server F :=
  match (srv.getSender peer).bind fun i ↦ srv.senders[i]?.map fun t ↦ (i, t) with
  | some (i, t) => if t.sdr.lastSent = t.sdr.pktNum then srv.removeSender i t else srv
  | none => srv

/-- No upload of the peer is open once a fully sent one is dropped, and the pool is full. -/
def Denies (srv : Server F) (p : PeerRef) : Prop :=
  (srv.dropSent (some p)).getSender (some p) = none ∧
    (srv.dropSent (some p)).pool.maxNum ≤ (srv.dropSent (some p)).pool.curNum

theorem within_dropSent (h : srv.pool.Within max) (peer : Option PeerRef) :
    (srv.dropSent peer).pool.Within max := by
  rw [dropSent]
  split
  · split
    · exact h.remove _
    · exact h
  · exact h

/-- `process_GET` drops a fully sent upload and then opens one, unless another upload of
the peer is open. -/
theorem Ok.processGETChecked_eq (h : srv.Ok) (getDataChunk : List UInt8 → Option ChunkData)
    (pkt : Packet) (p : PeerRef) :
    srv.processGETChecked getDataChunk pkt (some p) =
      if (srv.dropSent (some p)).getSender (some p) = none then
        processGETChecked.openUpload getDataChunk pkt (some p) (srv.dropSent (some p))
      else some (srv, []) := by
  rw [processGETChecked, dropSent]
  cases hget : srv.getSender (some p) with
  | none =>
      simp only [Option.bind_none, hget, if_true]
  | some i =>
      obtain ⟨s, hs, -, hpeer⟩ := h.getSender_eq_some_iff.mp hget
      have hsender := (upload_eq_some_iff.mp hs).1
      simp only [Option.bind_some, hsender, Option.map_some]
      by_cases hsent : s.sdr.lastSent = s.sdr.pktNum
      · simp only [hsent, if_true, h.getSender_removeSender hget hpeer]
      · simp only [hsent, if_false, hget, reduceCtorEq]

/-- With a full pool the request is denied, and otherwise a sender added. -/
theorem openUpload_cases {getDataChunk : List UInt8 → Option ChunkData}
    {r : Server F × List (PeerRef × Packet)}
    (hr : processGETChecked.openUpload getDataChunk pkt peer srv = some r) :
    (srv.pool.maxNum ≤ srv.pool.curNum ∧ r = (srv, sendPKT peer (makePKT .denied 0 0 []))) ∨
    (srv.pool.curNum < srv.pool.maxNum ∧ r.2 = [] ∧
      ∃ pkts num, srv.addSender peer pkts num = some r.1) := by
  rw [processGETChecked.openUpload] at hr
  split at hr
  · next hfull =>
      cases hr
      exact .inl ⟨hfull, rfl⟩
  · next hroom =>
      obtain ⟨hash, -, hr⟩ := Option.bind_eq_some_iff.mp hr
      obtain ⟨chunk, -, hr⟩ := Option.bind_eq_some_iff.mp hr
      obtain ⟨srv', hadd, rfl⟩ := Option.map_eq_some_iff.mp hr
      exact .inr ⟨Int.not_le.mp hroom, rfl, _, _, hadd⟩

theorem within_openUpload {getDataChunk : List UInt8 → Option ChunkData}
    {r : Server F × List (PeerRef × Packet)} (h : srv.pool.Within max)
    (hr : processGETChecked.openUpload getDataChunk pkt peer srv = some r) : r.1.pool.Within max := by
  rcases openUpload_cases hr with ⟨-, rfl⟩ | ⟨-, -, _, _, hadd⟩
  · exact h
  · obtain ⟨pool, hpool, hsrv⟩ := Option.map_eq_some_iff.mp hadd
    rw [← hsrv]
    exact h.add hpool

theorem Ok.within_processGETChecked (h : srv.Ok) {getDataChunk : List UInt8 → Option ChunkData}
    {r : Server F × List (PeerRef × Packet)} (hw : srv.pool.Within max)
    (hr : srv.processGETChecked getDataChunk pkt (some p) = some r) : r.1.pool.Within max := by
  rw [h.processGETChecked_eq] at hr
  split at hr
  · exact within_openUpload (within_dropSent hw _) hr
  · cases hr
    exact hw

/-- `process_GET` answers DENIED, if anything. -/
theorem Ok.processGETChecked_sent (h : srv.Ok) (getDataChunk : List UInt8 → Option ChunkData)
    (pkt : Packet) (p : PeerRef) :
    (srv.Denies p → ∃ srv', srv.processGETChecked getDataChunk pkt (some p) =
      some (srv', [(p, makePKT .denied 0 0 [])])) ∧
    (¬ srv.Denies p → ∀ r, srv.processGETChecked getDataChunk pkt (some p) = some r → r.2 = []) := by
  rw [h.processGETChecked_eq]
  constructor
  · rintro ⟨hfree, hfull⟩
    rw [if_pos hfree, processGETChecked.openUpload, if_pos hfull]
    exact ⟨_, rfl⟩
  · intro hdenies r hr
    split at hr
    · next hfree =>
        rcases openUpload_cases hr with ⟨hfull, -⟩ | ⟨-, hsent, -⟩
        · exact absurd ⟨hfree, hfull⟩ hdenies
        · exact hsent
    · cases hr
      rfl

/-- `process_GET` keeps the pool a map from peers to uploads. -/
theorem Ok.ok_processGET (h : srv.Ok) (getDataChunk : List UInt8 → ChunkData) (pkt : Packet)
    (p : PeerRef) : (srv.processGET getDataChunk pkt (some p)).1.Ok := by
  rcases h.processGET_cases getDataChunk pkt p with hkeeps | ⟨hok, -⟩
  · exact hkeeps.ok
  · exact hok

end Server

/-! ## The receiver pool -/

namespace Client

variable {c c' : Client} {max : Int} {shahash : List UInt8 → List UInt8}

theorem within_lookAt (h : c.receiverPool.Within max) : c.lookAt.1.receiverPool.Within max := by
  rcases lookAt_cases c with heq | ⟨down, p, pool, -, hadd, heq⟩
  · rw [heq]
    exact h
  · rw [heq]
    exact Pool.Within.add (show c.scanned.receiverPool.Within max from h) hadd

theorem within_processDATA {pkt : Packet} {peer : Option PeerRef} {acks : List Packet}
    (h : c.receiverPool.Within max) (hproc : c.processDATA shahash pkt peer = some (c', acks)) :
    c'.receiverPool.Within max := by
  rw [processDATA] at hproc
  split at hproc
  · cases hproc
    exact h
  · next rcvr hget =>
      obtain ⟨⟨rcvr', data⟩, -, hproc⟩ := Option.map_eq_some_iff.mp hproc
      have hset : ((c.setReceiver rcvr').setData rcvr'.chunk data).receiverPool.Within max :=
        ⟨h.maxNum, h.curNum⟩
      dsimp only at hproc
      split at hproc
      · cases hproc
        exact hset.remove _
      · cases hproc
        exact hset

end Client

/-! ## Any run -/

namespace Peer

variable {cfg : Config} {s s' : Peer F} {e : PeerEvent}

/-- A packet, if the event is one, comes from a configured peer. -/
def FromConfigured : PeerEvent → Prop
  | .packet _ _ peer => peer.isSome = true
  | _ => True

/-- The pools are maps from peers to workers, within the limit of the configuration. -/
structure PoolsOk (cfg : Config) (s : Peer F) : Prop where
  server : s.server.Ok
  client : ∃ c₀ : Client, c₀.Consistent s.client
  sender : s.server.pool.Within cfg.maxConn
  receiver : s.client.receiverPool.Within cfg.maxConn

theorem poolsOk_start (cfg : Config) (hmax : 0 ≤ cfg.maxConn) : (start cfg : Peer F).PoolsOk cfg where
  server := Server.ok_init cfg.maxConn
  client := ⟨_, Client.consistent_start cfg.maxConn []⟩
  sender := Pool.within_init hmax
  receiver := Pool.within_init hmax

/-- Each handler keeps the pools right. -/
theorem PoolsOk.handle (h : s.PoolsOk cfg) {type : PktType} {pkt : Packet} {p : PeerRef}
    {r : Peer F × List (PeerRef × Packet)} (hr : s.handle cfg type pkt (some p) = some r) :
    r.1.PoolsOk cfg := by
  obtain ⟨c₀, hc₀⟩ := h.client
  cases type with
  | whohas =>
      obtain ⟨sent, -, rfl⟩ := Option.map_eq_some_iff.mp hr
      exact h
  | ihave =>
      obtain ⟨c, hc, rfl⟩ := Option.map_eq_some_iff.mp hr
      obtain ⟨-, -, -, hpool⟩ := Client.processIHAVE_frame hc
      have hstep : s.client.step cfg.shahash (.ihave pkt (some p)) = some c := hc
      exact ⟨h.server, ⟨c₀, hc₀.step hstep⟩, h.sender, by rw [hpool]; exact h.receiver⟩
  | get =>
      obtain ⟨⟨srv, sent⟩, hsrv, rfl⟩ := Option.map_eq_some_iff.mp hr
      have heq := Server.processGET_of_checked hsrv
      refine ⟨?_, h.client, h.server.within_processGETChecked h.sender hsrv, h.receiver⟩
      show srv.Ok
      rw [← show (s.server.processGET cfg.getDataChunk pkt (some p)).1 = srv from congrArg _ heq]
      exact h.server.ok_processGET _ _ _
  | ack =>
      cases hr
      exact ⟨(h.server.processACK pkt p).1, h.client, Server.within_processACK h.sender pkt (some p),
        h.receiver⟩
  | data =>
      obtain ⟨⟨c, acks⟩, hc, rfl⟩ := Option.map_eq_some_iff.mp hr
      have hstep : s.client.step cfg.shahash (.data pkt (some p)) = some c :=
        congrArg (Option.map Prod.fst) hc
      exact ⟨h.server, ⟨c₀, hc₀.step hstep⟩, h.sender, Client.within_processDATA h.receiver hc⟩
  | denied =>
      cases hr
      exact h

/-- Each step does. -/
theorem PoolsOk.step (hmax : 0 ≤ cfg.maxConn) (h : s.PoolsOk cfg) (he : FromConfigured e)
    (hstep : s.step cfg e = some s') : s'.PoolsOk cfg := by
  cases e with
  | packet type pkt peer =>
      obtain ⟨p, rfl⟩ := Option.isSome_iff_exists.mp he
      obtain ⟨r, hr, rfl⟩ := Option.map_eq_some_iff.mp hstep
      exact h.handle hr
  | download lines =>
      cases hstep
      exact ⟨h.server, ⟨_, Client.consistent_start cfg.maxConn lines⟩, h.sender,
        Pool.within_init hmax⟩
  | lookAt =>
      cases hstep
      obtain ⟨c₀, hc₀⟩ := h.client
      have hlook : s.client.step cfg.shahash .lookAt = some _ := rfl
      exact ⟨h.server, ⟨c₀, hc₀.step hlook⟩, h.sender, Client.within_lookAt h.receiver⟩
  | thread i e =>
      cases e with
      | ack n => cases hstep
      | _ =>
          obtain ⟨srv, hsrv, rfl⟩ := Option.map_eq_some_iff.mp hstep
          have hpool : srv.pool = s.server.pool := Server.pool_thread hsrv
          exact ⟨(h.server.thread (fun n ↦ SendEvent.noConfusion) hsrv).1, h.client,
            hpool ▸ h.sender, h.receiver⟩

/-- In every run in which packets come from configured peers, both pools are sound, a
removal takes out exactly the worker of the given peer, and `process_GET` sends DENIED
exactly when the pool is full once a fully sent upload of the same peer is dropped and
no other upload of that peer is open. -/
theorem pools_sound (hmax : 0 ≤ cfg.maxConn)
    (h : Machine.ReachesBy (step cfg) FromConfigured (start cfg) s) :
    s.server.pool.Sound s.server.peerOf cfg.maxConn ∧
    s.client.receiverPool.Sound Receiver.pSender cfg.maxConn ∧
    (∀ i t, s.server.pool.TakesOut (s.server.removeSender i t).pool
      (s.server.serves t.sdr.pReceiver)) ∧
    (∀ rcvr, s.client.receiverPool.TakesOut (removeReceiver s.client.receiverPool rcvr)
      fun r ↦ r.pSender == rcvr.pSender) ∧
    ∀ pkt p,
      (s.server.Denies p → ∃ s', s.handle cfg .get pkt (some p) =
        some (s', [(p, makePKT .denied 0 0 [])])) ∧
      (¬ s.server.Denies p → ∀ r, s.handle cfg .get pkt (some p) = some r → r.2 = []) := by
  have hok : s.PoolsOk cfg :=
    h.invariant (fun _ _ _ hs he hstep ↦ hs.step hmax he hstep) (poolsOk_start cfg hmax)
  obtain ⟨c₀, hc₀⟩ := hok.client
  refine ⟨hok.sender.sound hok.server.counts hok.server.distinct,
    hok.receiver.sound hc₀.pool.counts hc₀.pool.distinct,
    fun i t ↦ hok.server.counts.takesOut_remove _,
    fun rcvr ↦ hc₀.pool.counts.takesOut_remove _, fun pkt p ↦ ?_⟩
  obtain ⟨hdenied, hopen⟩ := hok.server.processGETChecked_sent
    (fun hash ↦ some (cfg.getDataChunk hash)) pkt p
  constructor
  · intro hd
    obtain ⟨srv', hsrv'⟩ := hdenied hd
    exact ⟨{ s with server := srv' }, by rw [handle, hsrv']; rfl⟩
  · intro hd r hr
    obtain ⟨r', hr', rfl⟩ := Option.map_eq_some_iff.mp hr
    exact hopen hd r' hr'

/-- A peer with room for one connection, whose files hold a chunk of zeros. -/
def oneSlot : Config where
  byteOrder := .little
  peers := [⟨0, 0⟩]
  maxConn := 1
  hasChunks := none
  getDataChunk := fun _ ↦ .fill 0
  shahash := id

/-- The same peer once it has been asked for a chunk. -/
theorem pools_sound_get : ∃ s : Peer ℚ,
    Machine.ReachesBy (step oneSlot) FromConfigured (start oneSlot) s ∧ s.server.pool.curNum = 1 ∧
    s.server.pool.Sound s.server.peerOf 1 := by
  have hstep : (start oneSlot : Peer ℚ).step oneSlot
      (.packet .get (makeGET (List.replicate 20 0)) (some 0)) = some _ := rfl
  have hreaches : Machine.ReachesBy (step oneSlot) FromConfigured (start oneSlot : Peer ℚ) _ :=
    .single (by rfl) hstep
  exact ⟨_, hreaches, rfl, (pools_sound (by decide) hreaches).1⟩

end Peer

end BitTorrent
