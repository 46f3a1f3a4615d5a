import BitTorrent.Chunk.Buffers
import BitTorrent.Download.Checking
import BitTorrent.Download.Queues
import BitTorrent.Download.Requests

/-!
# Bringing a download to its end

As long as IHAVE packets come from configured peers, a download cannot get into a
state from which it cannot be finished, whatever its peers have sent.  The peers
that are being asked send what is missing, which sets all receivers free whether
their chunks pass the check or not; then the chunks are announced anew, asked for
one after the other, and sent.

What a receiver has been sent in the meantime may spoil its chunk.  Chunks that
nobody was asked for have the right bytes in the end.
-/

namespace BitTorrent

/-- `update_state` depends on hashes and states only. -/
theorem cState_updateState_congr {store store' : ChunkStore} {down : List ChunkRef}
    {chunk : ChunkRef} {new : ChunkState} (hsha1 : ∀ r, (store' r).sha1 = (store r).sha1)
    (hstate : ∀ r, (store' r).cState = (store r).cState) (r : ChunkRef) :
    (updateState store' down chunk new r).cState = (updateState store down chunk new r).cState := by
  have hfound : containsChunk store' down (store' chunk).hash =
      containsChunk store down (store chunk).hash := by
    rw [ChunkT.hash, hsha1, ← ChunkT.hash, containsChunk_congr hsha1]
  rw [updateState, updateState, hfound]
  cases containsChunk store down (store chunk).hash with
  | none => exact hstate r
  | some r' =>
      simp only [hstate]
      split
      · by_cases hr : r = r'
        · subst hr
          rw [Function.update_self, Function.update_self]
        · rw [Function.update_of_ne hr, Function.update_of_ne hr]
          exact hstate r
      · exact hstate r

namespace Client

variable {shahash : List UInt8 → List UInt8} {c₀ c c' : Client} {p q : PeerRef} {r : ChunkRef}
  {rcvr : Receiver} {content : ChunkData} {contents : ChunkRef → ChunkData} {e : DownloadEvent}

/-! ## The thread and the handlers -/

/-- The handlers, and the loop of `pthread_receiver`, which is left with an empty queue. -/
def loopStep (shahash : List UInt8 → List UInt8) (c : Client) : DownloadEvent → Option Client
  | .lookAt => c.pthreadReceiver.map Prod.fst
  | .ihave pkt peer => c.processIHAVE pkt peer
  | .data pkt peer => (c.processDATA shahash pkt peer).map Prod.fst

theorem step_of_loopStep (h : c.loopStep shahash e = some c') : c.step shahash e = some c' := by
  cases e with
  | lookAt =>
      obtain ⟨out, hout, rfl⟩ := Option.map_eq_some_iff.mp h
      obtain ⟨-, hout⟩ := Option.ite_none_left_eq_some.mp hout
      cases hout
      rfl
  | ihave pkt peer => exact h
  | data pkt peer => exact h

/-- The packet comes from a configured peer. -/
def FromPeer : DownloadEvent → Prop
  | .ihave _ peer => peer ≠ none
  | _ => True

/-- What is sent are announcements of configured peers and packets of the chunks. -/
def Helps (contents : ChunkRef → ChunkData) : DownloadEvent → Prop
  | .lookAt => True
  | .ihave _ peer => peer ≠ none
  | .data pkt _ => ∃ r, pkt ∈ (chunk2pkts (contents r)).1

/-! ## What peers cannot spoil -/

/-- The counters of the receivers agree, and all holders are configured peers. -/
structure Sane (c₀ c : Client) : Prop where
  consistent : c₀.Consistent c
  next_eq : ∀ p rcvr, getReceiver c.receiverPool (some p) = some rcvr →
    rcvr.nextExpected = rcvr.lastRcvd + 1
  known : ∀ r, none ∉ (c.chunks r).holders
  maxNum : c.receiverPool.maxNum = c₀.receiverPool.maxNum

theorem sane_start (max : Int) (lines : List (Int × List UInt8)) :
    (start max lines).Sane (start max lines) where
  consistent := consistent_start max lines
  next_eq _ _ h := by cases h
  known r := by
    rw [holders_start]
    exact List.not_mem_nil
  maxNum := rfl

/-- A receiver that stores a packet waits for the next one. -/
theorem next_eq_of_store {rcvr' : Receiver} {data data' : ChunkData} {pkt : Packet}
    (h : rcvr.store data pkt = some (rcvr', data')) (hnext : rcvr.nextExpected = rcvr.lastRcvd + 1) :
    rcvr'.nextExpected = rcvr'.lastRcvd + 1 := by
  rw [Receiver.store] at h
  split at h
  · obtain ⟨d, -, heq⟩ := Option.map_eq_some_iff.mp h
    cases heq
    rfl
  · cases h
    exact hnext

theorem Sane.step (h : c₀.Sane c) (he : FromPeer e) (hstep : c.step shahash e = some c') :
    c₀.Sane c' := by
  have hconsistent := h.consistent.step hstep
  cases e with
  | lookAt =>
      cases hstep
      refine ⟨hconsistent, ?_, ?_, (maxNum_lookAt c).trans h.maxNum⟩
      · intro q rcvr hget
        rcases receivers_lookAt h.consistent.pool with ⟨-, hpool⟩ | ⟨p, down, -, hall⟩
        · rw [hpool] at hget
          exact h.next_eq q rcvr hget
        · rw [hall] at hget
          split at hget
          · cases hget
            rfl
          · exact h.next_eq q rcvr hget
      · intro r
        rw [holders_lookAt]
        exact h.known r
  | ihave pkt peer =>
      obtain ⟨p, rfl⟩ := Option.ne_none_iff_exists'.mp he
      obtain ⟨-, -, -, hpool⟩ := processIHAVE_frame hstep
      obtain ⟨-, hholders⟩ := holders_announcement hstep
      refine ⟨hconsistent, ?_, ?_, hpool ▸ h.maxNum⟩
      · intro q rcvr hget
        rw [hpool] at hget
        exact h.next_eq q rcvr hget
      · intro r hmem
        rw [hholders, List.mem_append] at hmem
        rcases hmem with hold | hnew
        · exact h.known r hold
        · split at hnew
          · exact Option.noConfusion rfl (heq_of_eq (List.eq_of_mem_replicate hnew))
          · cases hnew
  | data pkt peer =>
      obtain ⟨⟨c'', acks⟩, hproc, rfl⟩ := Option.map_eq_some_iff.mp hstep
      rcases processDATA_cases h.consistent.pool hproc with rfl | ⟨p, rcvr, r', rfl, hget, hstore, -,
        hconn, hframe, -⟩
      · exact h
      · refine ⟨hconsistent, ?_, ?_, hframe.maxNum.trans h.maxNum⟩
        · intro q rcvr' hget'
          by_cases hq : p = q
          · subst hq
            rw [hconn.get] at hget'
            split at hget'
            · cases hget'
              exact next_eq_of_store hstore (h.next_eq p rcvr hget)
            · cases hget'
          · rw [hframe.others q hq] at hget'
            exact h.next_eq q rcvr' hget'
        · intro r
          rw [hframe.holders]
          exact h.known r

/-- What peers help with does not spoil it. -/
theorem Sane.reachesBy (h : c₀.Sane c)
    (hreach : Machine.ReachesBy (loopStep shahash) (Helps contents) c c') : c₀.Sane c' := by
  refine hreach.invariant (fun s e t hs he hstep ↦ hs.step ?_ (step_of_loopStep hstep)) h
  cases e with
  | lookAt => trivial
  | ihave pkt peer => exact he
  | data pkt peer => trivial

/-- With its buffer a receiver of the pool is as it should be. -/
theorem Sane.receiving (h : c₀.Sane c) (hget : getReceiver c.receiverPool (some p) = some rcvr) :
    (Receiving.mk rcvr (c.chunks rcvr.chunk).data true).Ok := by
  have hlt : rcvr.lastRcvd < dataPktNum := by
    have hopen := h.consistent.incomplete p rcvr hget
    rw [Receiver.complete_iff] at hopen
    exact Nat.lt_of_not_le hopen
  exact ⟨h.next_eq p rcvr hget, Nat.le_of_lt hlt, iff_of_true rfl hlt⟩

/-! ## Setting a receiver free -/

/-- The receiver of `p` is gone, and its chunk has been checked with the bytes `d`. -/
structure Drained (shahash : List UInt8 → List UInt8) (c c' : Client) (p : PeerRef)
    (chunk : ChunkRef) (d : ChunkData) : Prop where
  frame : c.DeliveryFrame c' p chunk
  gone : getReceiver c'.receiverPool (some p) = none
  data : (c'.chunks chunk).data = d
  cState : ∀ r, (c'.chunks r).cState = (updateState c.chunks c.downChunks chunk
    (if checkChunk shahash d (c.chunks chunk).sha1 then .finished else .ready) r).cState

/-- A packet that leaves the connection open, and what drains it then. -/
theorem Drained.head {c₁ : Client} {chunk : ChunkRef} {d : ChunkData} {rc : Receiving}
    (hframe : c.DeliveryFrame c₁ p chunk) (hopen : rc.opened = true)
    (hchunks : c₁.chunks = c.storeAfter shahash chunk rc) (h : Drained shahash c₁ c' p chunk d) :
    Drained shahash c c' p chunk d := by
  have hstate : ∀ r, (c₁.chunks r).cState = (c.chunks r).cState := by
    intro r
    rw [hchunks, storeAfter, if_pos hopen, cState_setData]
  refine ⟨hframe.trans h.frame, h.gone, h.data, fun r ↦ ?_⟩
  rw [h.cState, hframe.down, hframe.sha1, cState_updateState_congr hframe.sha1 hstate]

/-- Whatever it has received so far, the packets it waits for bring a receiver to its end. -/
theorem exists_drained {chunk : ChunkRef} {rc : Receiving} (shahash : List UInt8 → List UInt8)
    (contents : ChunkRef → ChunkData) (hpool : c.receiverPool.Ok)
    (hconn : c.Connection p rc) (hok : rc.Ok) (hopen : rc.opened = true)
    (hchunk : rc.rcvr.chunk = chunk) :
    ∃ c' d, Machine.ReachesBy (loopStep shahash) (Helps contents) c c' ∧
      Drained shahash c c' p chunk d ∧ ∀ old : List UInt8, old.length = btChunkSize →
        rc.chunk.bytes = Bytes.blend (rc.rcvr.lastRcvd * dataSize) (contents chunk).bytes old →
        d = contents chunk := by
  -- induction on the number of packets that are still to come
  generalize hleft : dataPktNum - rc.rcvr.lastRcvd = left
  induction left generalizing c rc with
  | zero => exact absurd (hok.opened_iff.mp hopen) (Nat.not_lt_of_le (Nat.le_of_sub_eq_zero hleft))
  | succ left ih =>
      have hlt := hok.opened_iff.mp hopen
      obtain ⟨stored, hproc, hblend⟩ := Receiving.processDATA_expected (contents chunk) hok hlt
      obtain ⟨c₁, hc₁, hconn₁, hframe₁, -, hchunks₁⟩ := hconn.processDATA shahash hpool hproc
      rw [hchunk] at hframe₁ hchunks₁
      have hhelps : Helps contents (.data (dataPacket (contents chunk) rc.rcvr.lastRcvd) (some p)) :=
        ⟨chunk, mem_chunk2pkts.mpr ⟨_, hlt, rfl⟩⟩
      have hstep : c.loopStep shahash (.data (dataPacket (contents chunk) rc.rcvr.lastRcvd) (some p)) =
          some c₁ := by
        rw [loopStep, hc₁]
        rfl
      by_cases hnext : (rc.next stored).opened = true
      · have hleft₁ : dataPktNum - (rc.rcvr.lastRcvd + 1) = left := by omega
        obtain ⟨c', d, hreach, hdrained, hd⟩ :=
          ih hframe₁.pool hconn₁ (Receiving.ok_next hlt) hnext hchunk hleft₁
        refine ⟨c', d, .head hhelps hstep hreach, hdrained.head hframe₁ hnext (hchunks₁ hopen), ?_⟩
        exact fun old hold hbytes ↦ hd old hold (hblend old hold hbytes)
      · have hlast : dataPktNum ≤ rc.rcvr.lastRcvd + 1 := by
          rw [(Receiving.ok_next hlt).opened_iff] at hnext
          exact Nat.le_of_not_lt hnext
        refine ⟨c₁, stored, .single hhelps hstep, ⟨hframe₁, ?_, ?_, fun r ↦ ?_⟩, ?_⟩
        · rw [hconn₁.get, if_neg hnext]
        · rw [← hchunk]
          exact hconn₁.data
        · rw [hchunks₁ hopen, storeAfter, if_neg hnext]
          exact cState_updateState_congr (sha1_setData c chunk stored) (cState_setData c chunk stored) r
        · intro old hold hbytes
          have hsize : btChunkSize ≤ (rc.rcvr.lastRcvd + 1) * dataSize :=
            Nat.le_trans (by decide) (Nat.mul_le_mul_right dataSize hlast)
          ext1
          rw [hblend old hold hbytes]
          exact Bytes.blend_of_length_le ((ChunkData.size_eq _).trans_le hsize) (hold.trans_le hsize)

/-- The receivers of the peers `ps` are gone, and nothing else has happened to chunks that no
receiver is for. -/
structure Freed (c c' : Client) (ps : List PeerRef) : Prop where
  down : c'.downChunks = c.downChunks
  done : c'.doneChunks = c.doneChunks
  gone : ∀ p ∈ ps, getReceiver c'.receiverPool (some p) = none
  others : ∀ p, p ∉ ps → getReceiver c'.receiverPool (some p) = getReceiver c.receiverPool (some p)
  idle : ∀ r ∈ c.downChunks ++ c.doneChunks,
    (∀ p rcvr, getReceiver c.receiverPool (some p) = some rcvr → rcvr.chunk ≠ r) →
      (c'.chunks r).data = (c.chunks r).data ∧ (c'.chunks r).cState = (c.chunks r).cState

/-- Each of the peers sends what its receiver waits for. -/
theorem Sane.exists_freed (shahash : List UInt8 → List UInt8) (contents : ChunkRef → ChunkData)
    (h : c₀.Sane c)
    (hdistinct : ((c₀.downChunks ++ c₀.doneChunks).map fun r ↦ (c₀.chunks r).hash).Nodup)
    (hqueued : ∀ p rcvr, getReceiver c.receiverPool (some p) = some rcvr →
      rcvr.chunk ∈ c.downChunks ++ c.doneChunks) (ps : List PeerRef) :
    ∃ c', Machine.ReachesBy (loopStep shahash) (Helps contents) c c' ∧ Freed c c' ps := by
  induction ps generalizing c with
  | nil =>
      exact ⟨c, .refl c, rfl, rfl, fun p hp ↦ absurd hp List.not_mem_nil, fun _ _ ↦ rfl,
        fun r _ _ ↦ ⟨rfl, rfl⟩⟩
  | cons p ps ih =>
      cases hget : getReceiver c.receiverPool (some p) with
      | none =>
          obtain ⟨c', hreach, hfreed⟩ := ih h hqueued
          refine ⟨c', hreach, hfreed.down, hfreed.done, fun q hq ↦ ?_, fun q hq ↦ ?_, hfreed.idle⟩
          · by_cases hmem : q ∈ ps
            · exact hfreed.gone q hmem
            · rw [hfreed.others q hmem, (List.mem_cons.mp hq).resolve_right hmem, hget]
          · exact hfreed.others q fun hmem ↦ hq (List.mem_cons_of_mem p hmem)
      | some rcvr =>
          obtain ⟨c₁, d, hreach₁, hdrained, -⟩ := exists_drained shahash contents
            h.consistent.pool (connection_of_get hget) (h.receiving hget) rfl rfl
          have hframe := hdrained.frame
          have hothers : ∀ q rcvr', getReceiver c₁.receiverPool (some q) = some rcvr' →
              getReceiver c.receiverPool (some q) = some rcvr' := by
            intro q rcvr' hget'
            by_cases hq : p = q
            · rw [← hq, hdrained.gone] at hget'
              cases hget'
            · rwa [hframe.others q hq] at hget'
          have hqueued₁ : ∀ q rcvr', getReceiver c₁.receiverPool (some q) = some rcvr' →
              rcvr'.chunk ∈ c₁.downChunks ++ c₁.doneChunks := by
            intro q rcvr' hget'
            rw [hframe.down, hframe.done]
            exact hqueued q rcvr' (hothers q rcvr' hget')
          obtain ⟨c', hreach, hfreed⟩ := ih (h.reachesBy hreach₁) hqueued₁
          refine ⟨c', hreach₁.trans hreach, hfreed.down.trans hframe.down,
            hfreed.done.trans hframe.done, fun q hq ↦ ?_, fun q hq ↦ ?_, fun r hr hidle ↦ ?_⟩
          · by_cases hmem : q ∈ ps
            · exact hfreed.gone q hmem
            · rw [hfreed.others q hmem, (List.mem_cons.mp hq).resolve_right hmem, hdrained.gone]
          · obtain ⟨hp, hmem⟩ := not_or.mp (List.mem_cons.not.mp hq)
            rw [hfreed.others q hmem, hframe.others q (Ne.symm hp)]
          · have hne : r ≠ rcvr.chunk := (hidle p rcvr hget).symm
            have hhash : (c.chunks r).hash ≠ (c.chunks rcvr.chunk).hash := fun heq ↦
              hne (h.consistent.hash_inj hdistinct hr (hqueued p rcvr hget) heq)
            obtain ⟨hdata, hstate⟩ := hfreed.idle r (by rwa [hframe.down, hframe.done])
              fun q rcvr' hget' ↦ hidle q rcvr' (hothers q rcvr' hget')
            exact ⟨hdata.trans (hframe.data r hne), hstate.trans (hframe.cState r hhash)⟩

/-! ## Announcing the chunks -/

/-- An IHAVE packet with one hash. -/
def oneIHAVE (hash : List UInt8) : Packet :=
  makeIHAVE (4 + sha1HashSize * 1) (hashList 1 [chunkOfHash hash])

theorem pkt2chunks_oneIHAVE {hash : List UInt8} (h : hash.length = sha1HashSize) :
    (∃ iHave, pkt2chunks (oneIHAVE hash) .ihave = some iHave) ∧
      listed (oneIHAVE hash) = [hash.flatMap byteHex] := by
  have hpkt : pkt2chunks (makePKT .ihave 0 (4 + sha1HashSize * 1) (hashList 1 [chunkOfHash hash]))
      .ihave = some _ := pkt2chunks_hashPacket (.inr rfl) (by decide) (Nat.le_refl 1)
  have hhex : ∀ x ∈ [chunkOfHash hash], x.HexText := by
    intro x hx
    rw [List.mem_singleton.mp hx]
    exact hexText_chunkOfHash h
  refine ⟨⟨_, hpkt⟩, ?_⟩
  rw [listed, oneIHAVE, makeIHAVE, hpkt, Option.getD_some, map_hash_chunkOfHash hhex]
  exact congrArg (fun t ↦ [t]) (hash_chunkOfHash_eq h)

/-- Nothing but holders has been added. -/
structure Grown (c c' : Client) : Prop where
  same : SameBut c.chunks c'.chunks
  down : c'.downChunks = c.downChunks
  done : c'.doneChunks = c.doneChunks
  pool : c'.receiverPool = c.receiverPool
  holders : ∀ r, (c.chunks r).holders ≠ [] → (c'.chunks r).holders ≠ []

theorem Grown.refl (c : Client) : Grown c c :=
  ⟨⟨fun _ ↦ rfl, fun _ ↦ rfl, fun _ ↦ rfl, fun _ ↦ rfl⟩, rfl, rfl, rfl, fun _ h ↦ h⟩

theorem Grown.trans {c₁ c₂ c₃ : Client} (h : Grown c₁ c₂) (h' : Grown c₂ c₃) : Grown c₁ c₃ where
  same := ⟨fun r ↦ (h'.same.cState r).trans (h.same.cState r),
    fun r ↦ (h'.same.data r).trans (h.same.data r), fun r ↦ (h'.same.sha1 r).trans (h.same.sha1 r),
    fun r ↦ (h'.same.id r).trans (h.same.id r)⟩
  down := h'.down.trans h.down
  done := h'.done.trans h.done
  pool := h'.pool.trans h.pool
  holders r hr := h'.holders r (h.holders r hr)

/-- With distinct hashes every chunk of the queue is the first with its own. -/
theorem Consistent.isFirst (h : c₀.Consistent c)
    (hdistinct : ((c₀.downChunks ++ c₀.doneChunks).map fun r ↦ (c₀.chunks r).hash).Nodup)
    (hr : r ∈ c.downChunks) : c.IsFirst r := by
  obtain ⟨r', hfound⟩ := exists_isFirst hr
  obtain ⟨hr', hhash, hfirst⟩ := containsChunk_eq_some hfound
  rwa [h.hash_inj hdistinct (List.mem_append_left _ hr') (List.mem_append_left _ hr) hhash] at hfirst

/-- A chunk that is the first with its hash gets a holder by one packet. -/
theorem exists_announced_one {hash : List UInt8} (shahash : List UInt8 → List UInt8)
    (contents : ChunkRef → ChunkData) (hlen : hash.length = sha1HashSize) (hfirst : c.IsFirst r)
    (htext : (c.chunks r).hash = hash.flatMap byteHex) :
    ∃ c', Machine.ReachesBy (loopStep shahash) (Helps contents) c c' ∧ Grown c c' ∧
      c.Announced c' ∧ (c'.chunks r).holders ≠ [] := by
  obtain ⟨⟨iHave, hpkt⟩, hlisted⟩ := pkt2chunks_oneIHAVE hlen
  obtain ⟨c', hproc⟩ : ∃ c', c.processIHAVE (oneIHAVE hash) (some 0) = some c' := by
    rw [processIHAVE, hpkt]
    exact ⟨_, rfl⟩
  obtain ⟨hsame, hdown, hdone, hpool⟩ := processIHAVE_frame hproc
  obtain ⟨hann, hholders⟩ := holders_announcement hproc
  have hhelps : Helps contents (.ihave (oneIHAVE hash) (some 0)) := Option.some_ne_none 0
  refine ⟨c', .single hhelps hproc, ⟨hsame, hdown, hdone, hpool, fun r' hr' ↦ ?_⟩, hann, ?_⟩
  · rw [hholders]
    exact List.append_ne_nil_of_left_ne_nil hr' _
  · rw [hholders, if_pos hfirst, hlisted, htext, List.count_singleton_self]
    exact List.append_ne_nil_of_right_ne_nil _ (List.cons_ne_nil _ _)

/-- One after the other, all of them do. -/
theorem exists_announced (shahash : List UInt8 → List UInt8) (contents : ChunkRef → ChunkData)
    (rs : List ChunkRef) (hfirst : ∀ r ∈ rs, c.IsFirst r)
    (htext : ∀ r ∈ rs, ∃ hash : List UInt8, hash.length = sha1HashSize ∧
      (c.chunks r).hash = hash.flatMap byteHex) :
    ∃ c', Machine.ReachesBy (loopStep shahash) (Helps contents) c c' ∧ Grown c c' ∧
      ∀ r ∈ rs, (c'.chunks r).holders ≠ [] := by
  induction rs generalizing c with
  | nil => exact ⟨c, .refl c, .refl c, fun r hr ↦ absurd hr List.not_mem_nil⟩
  | cons r rs ih =>
      obtain ⟨hash, hlen, hhash⟩ := htext r (List.mem_cons_self ..)
      obtain ⟨c₁, hreach₁, hgrown₁, hann, hheld⟩ :=
        exists_announced_one shahash contents hlen (hfirst r (List.mem_cons_self ..)) hhash
      obtain ⟨c', hreach, hgrown, hall⟩ := ih
        (fun r' hr' ↦ hann.isFirst_iff.mpr (hfirst r' (List.mem_cons_of_mem r hr')))
        (fun r' hr' ↦ by
          rw [hann.hash_eq]
          exact htext r' (List.mem_cons_of_mem r hr'))
      refine ⟨c', hreach₁.trans hreach, hgrown₁.trans hgrown, fun r' hr' ↦ ?_⟩
      rcases List.mem_cons.mp hr' with rfl | hr'
      · exact hgrown.holders r' hheld
      · exact hall r' hr'

/-! ## Fetching the chunks -/

/-- There is something to ask for, and nobody is being asked: everything in the queue has
holders, and the contents are the right ones. -/
structure Fetches (shahash : List UInt8 → List UInt8) (contents : ChunkRef → ChunkData)
    (c₀ c : Client) : Prop where
  sane : c₀.Sane c
  room : 1 ≤ c₀.receiverPool.maxNum
  gone : ∀ p, getReceiver c.receiverPool (some p) = none
  held : ∀ r ∈ c.downChunks, (c.chunks r).holders ≠ []
  right : ∀ r ∈ c.downChunks, checkChunk shahash (contents r) (c.chunks r).sha1 = true

/-- The chunk has been fetched, and the queue was scanned before that. -/
structure Fetched (contents : ChunkRef → ChunkData) (c c' : Client) (chunk : ChunkRef) : Prop where
  mem : chunk ∈ c.scanned.downChunks
  down : c'.downChunks = c.scanned.downChunks
  done : c'.doneChunks = c.scanned.doneChunks
  data : (c'.chunks chunk).data = contents chunk
  finished : (c'.chunks chunk).cState = .finished
  others : ∀ r ∈ c.downChunks ++ c.doneChunks, r ≠ chunk →
    (c'.chunks r).data = (c.chunks r).data ∧ (c'.chunks r).cState = (c.chunks r).cState

/-- With no receiver at all, the first holder is picked. -/
theorem pickHolder_of_gone {pool : ReceiverPool} {holders : List (Option PeerRef)}
    (hgone : ∀ p, getReceiver pool (some p) = none) (hne : holders ≠ []) (hknown : none ∉ holders)
    (peer : Option PeerRef) : ∃ p, pickHolder pool peer holders = some p := by
  cases holders with
  | nil => exact absurd rfl hne
  | cons h hs =>
      obtain ⟨p, rfl⟩ : ∃ p, h = some p :=
        Option.ne_none_iff_exists'.mp fun hnone ↦ hknown (hnone ▸ List.mem_cons_self ..)
      exact ⟨p, if_pos (hgone p)⟩

/-- So the chunk that is chosen is asked for. -/
theorem Fetches.exists_attaches (h : Fetches shahash contents c₀ c) (hmore : c.scanned.downChunks ≠ []) :
    ∃ down p, c.Attaches down p := by
  obtain ⟨first, rest, hqueue⟩ := List.exists_cons_of_ne_nil hmore
  let down := chooseChunkToDownload c.chunks first (first :: rest)
  have hmem : down ∈ c.scanned.downChunks := by
    have hchosen := chooseChunkToDownload_mem c.chunks first (first :: rest)
    rw [hqueue]
    rcases List.mem_cons.mp hchosen with heq | hchosen
    · exact heq ▸ List.mem_cons_self ..
    · exact hchosen
  obtain ⟨p, hpick⟩ := pickHolder_of_gone h.gone (h.held down (mem_downChunks_scanned.mp hmem).1)
    (h.sane.known down) none
  have hempty : c.receiverPool.workers = [] := by
    rw [List.eq_nil_iff_forall_not_mem]
    intro w hw
    rw [mem_workers_iff h.sane.consistent.pool, h.gone] at hw
    cases hw
  have hcur : c.receiverPool.curNum = 0 := by
    rw [h.sane.consistent.pool.counts, hempty]
    rfl
  refine ⟨down, p, ?_, ⟨first, rest, hqueue, rfl⟩, hpick, h.gone p⟩
  rw [hcur, h.sane.maxNum]
  exact h.room

/-- The chunk chosen is fetched from its first holder. -/
theorem Fetches.exists_fetched (h : Fetches shahash contents c₀ c)
    (hdistinct : ((c₀.downChunks ++ c₀.doneChunks).map fun r ↦ (c₀.chunks r).hash).Nodup)
    (hmore : c.scanned.downChunks ≠ []) :
    ∃ c' r, Machine.ReachesBy (loopStep shahash) (Helps contents) c c' ∧
      Fetched contents c c' r ∧ Fetches shahash contents c₀ c' := by
  obtain ⟨down, p, hattaches⟩ := h.exists_attaches hmore
  obtain ⟨pool', hadd, heq⟩ := hattaches.lookAt_eq
  have hmem : down ∈ c.scanned.downChunks := mem_downChunks_scanned.mpr hattaches.mem
  have hdown : c.downChunks ≠ [] := List.ne_nil_of_mem hattaches.mem.1
  let c₁ := c.scanned.attached down pool'
  have hstep : c.loopStep shahash .lookAt = some c₁ := by
    rw [loopStep, pthreadReceiver, if_neg hdown, heq]
    rfl
  have hhelps : Helps contents .lookAt := trivial
  have hlook : Machine.ReachesBy (loopStep shahash) (Helps contents) c c₁ := .single hhelps hstep
  have hsane : c₀.Sane c₁ := h.sane.reachesBy hlook
  have hget : ∀ q, getReceiver c₁.receiverPool (some q) =
      if p = q then some (newReceiver p down) else none := by
    intro q
    rw [← h.gone q]
    exact getReceiver_addReceiver hattaches.free hadd h.sane.consistent.pool.counts
  have hgetp : getReceiver c₁.receiverPool (some p) = some (newReceiver p down) := by
    rw [hget, if_pos rfl]
  have hchunk : (newReceiver p down).chunk = down := rfl
  obtain ⟨c', d, hreach, hdrained, hd⟩ := exists_drained shahash contents hsane.consistent.pool
    (connection_of_get hgetp) (hsane.receiving hgetp) rfl hchunk
  -- the receiver is new: it takes the whole chunk
  have hdata : d = contents down := hd _ (ChunkData.size_eq _) (by
    show _ = Bytes.blend (0 * dataSize) _ _
    rw [Nat.zero_mul, Bytes.blend_zero])
  subst hdata
  have hframe := hdrained.frame
  have hreach' := hlook.trans hreach
  have hsane' : c₀.Sane c' := h.sane.reachesBy hreach'
  have hsha1 : ∀ r, (c'.chunks r).sha1 = (c.chunks r).sha1 := fun r ↦
    (hsane'.consistent.sha1 r).trans (h.sane.consistent.sha1 r).symm
  have hsha1₁ : ∀ r, (c₁.chunks r).sha1 = (c.chunks r).sha1 := fun r ↦ sha1_updateState ..
  have hmem₁ : down ∈ c₁.downChunks ++ c₁.doneChunks := List.mem_append_left _ hmem
  have hfinished : (c'.chunks down).cState = .finished := by
    have hgood : checkChunk shahash (contents down) (c₁.chunks down).sha1 = true := by
      rw [hsha1₁]
      exact h.right down hattaches.mem.1
    rw [hdrained.cState, if_pos hgood]
    rcases hsane.consistent.containsChunk_cases hdistinct hmem₁ with hfound | ⟨-, hfin⟩
    · exact cState_updateState_finished hfound
    · rw [updateState_of_finished hfin]
      exact hfin
  refine ⟨c', down, hreach', ⟨hmem, hframe.down, hframe.done, hdrained.data, hfinished,
    fun r hr hne ↦ ?_⟩, hsane', h.room, fun q ↦ ?_, fun r hr ↦ ?_, fun r hr ↦ ?_⟩
  · have hhash : (c.chunks r).hash ≠ (c.chunks down).hash := fun hsame ↦
      hne (h.sane.consistent.hash_inj hdistinct hr (List.mem_append_left _ hattaches.mem.1) hsame)
    have hhash₁ : (c₁.chunks r).hash ≠ (c₁.chunks down).hash := by
      rw [ChunkT.hash, ChunkT.hash, hsha1₁, hsha1₁]
      exact hhash
    exact ⟨(hframe.data r hne).trans (data_updateState ..),
      (hframe.cState r hhash₁).trans (cState_updateState_of_ne hhash)⟩
  · by_cases hq : p = q
    · rw [← hq]
      exact hdrained.gone
    · rw [hframe.others q hq, hget, if_neg hq]
  · rw [hframe.holders]
    show (updateState c.chunks _ _ _ r).holders ≠ []
    rw [holders_updateState]
    rw [hframe.down] at hr
    exact h.held r (mem_downChunks_scanned.mp hr).1
  · rw [hsha1]
    rw [hframe.down] at hr
    exact h.right r (mem_downChunks_scanned.mp hr).1

/-- The queue is empty, and what was not finished has the bytes of the contents. -/
structure Ended (contents : ChunkRef → ChunkData) (c c' : Client) : Prop where
  empty : c'.downChunks = []
  data : ∀ r ∈ c.downChunks ++ c.doneChunks, (c'.chunks r).data =
    if (c.chunks r).cState = .finished then (c.chunks r).data else contents r

/-- One after the other, the chunks of the queue are fetched. -/
theorem Fetches.exists_ended (h : Fetches shahash contents c₀ c)
    (hdistinct : ((c₀.downChunks ++ c₀.doneChunks).map fun r ↦ (c₀.chunks r).hash).Nodup) :
    ∃ c', Machine.ReachesBy (loopStep shahash) (Helps contents) c c' ∧ Ended contents c c' ∧
      ∀ p, getReceiver c'.receiverPool (some p) = none := by
  -- induction on the number of unfinished chunks in the queue
  obtain ⟨n, hnum⟩ : ∃ n, c.scanned.downChunks.length ≤ n := ⟨_, Nat.le_refl _⟩
  induction n generalizing c with
  | zero =>
      have hnone : c.scanned.downChunks = [] := List.length_eq_zero_iff.mp (Nat.le_zero.mp hnum)
      have hall : ∀ r ∈ c.downChunks ++ c.doneChunks, (c.chunks r).cState = .finished := by
        intro r hr
        rcases List.mem_append.mp hr with hdown | hdone
        · by_contra hopen
          exact List.ne_nil_of_mem (mem_downChunks_scanned.mpr ⟨hdown, hopen⟩) hnone
        · exact h.sane.consistent.done r hdone
      have hdata : ∀ r ∈ c.downChunks ++ c.doneChunks, (c.chunks r).data =
          if (c.chunks r).cState = .finished then (c.chunks r).data else contents r := fun r hr ↦
        (if_pos (hall r hr)).symm
      by_cases hdown : c.downChunks = []
      · exact ⟨c, .refl c, ⟨hdown, hdata⟩, h.gone⟩
      · have hlook : c.lookAt = (c.scanned, []) := lookAt_of_not_attaches fun down p hattaches ↦
          List.ne_nil_of_mem (mem_downChunks_scanned.mpr hattaches.mem) hnone
        have hstep : c.loopStep shahash .lookAt = some c.scanned := by
          rw [loopStep, pthreadReceiver, if_neg hdown, hlook]
          rfl
        have hhelps : Helps contents .lookAt := trivial
        exact ⟨c.scanned, .single hhelps hstep, ⟨hnone, hdata⟩, h.gone⟩
  | succ n ih =>
      by_cases hmore : c.scanned.downChunks = []
      · exact ih h (by rw [hmore]; exact Nat.zero_le n)
      obtain ⟨c₁, r₁, hreach₁, hfetched, h₁⟩ := h.exists_fetched hdistinct hmore
      have hlt : c₁.scanned.downChunks.length < c.scanned.downChunks.length := by
        show (scanChunkDone c₁.chunks c₁.downChunks c₁.doneChunks).1.length < _
        rw [scanChunkDone_eq, hfetched.down, List.length_filter_lt_length_iff_exists]
        exact ⟨r₁, hfetched.mem, by simp [hfetched.finished]⟩
      obtain ⟨c', hreach, hended, hgone⟩ := ih h₁ (Nat.le_of_lt_succ (Nat.lt_of_lt_of_le hlt hnum))
      refine ⟨c', hreach₁.trans hreach, ⟨hended.empty, fun r hr ↦ ?_⟩, hgone⟩
      have hr₁ : r ∈ c₁.downChunks ++ c₁.doneChunks := by
        rw [hfetched.down, hfetched.done]
        exact (scanChunkDone_perm c.chunks c.downChunks c.doneChunks).mem_iff.mpr hr
      rw [hended.data r hr₁]
      by_cases heq : r = r₁
      · subst heq
        rw [if_pos hfetched.finished, if_neg (mem_downChunks_scanned.mp hfetched.mem).2, hfetched.data]
      · obtain ⟨hdata, hstate⟩ := hfetched.others r hr heq
        rw [hdata, hstate]

/-! ## Any state -/

/-- From a state that configured peers have led to, with every receiver working on a chunk of the
request: the receivers go, the chunks are announced, and they are asked for. -/
theorem Sane.exists_ended {max : Int} {lines : List (Int × List UInt8)}
    (hsane : (start max lines).Sane c)
    (hqueued : ∀ p rcvr, getReceiver c.receiverPool (some p) = some rcvr →
      rcvr.chunk ∈ c.downChunks ++ c.doneChunks)
    (hsize : ∀ m, (shahash m).length = sha1HashSize) (hmax : 1 ≤ max)
    (hdistinct : (lines.map fun l ↦ l.2.take (2 * sha1HashSize)).Nodup)
    (hright : ∀ r line, lines[r]? = some line → checkChunk shahash (contents r) line.2 = true) :
    ∃ c', Machine.ReachesBy (loopStep shahash) (Helps contents) c c' ∧ c'.pthreadReceiver = none ∧
      c'.doneChunks.Perm (List.range lines.length) ∧
      (∀ p, getReceiver c'.receiverPool (some p) = none) ∧
      ∀ r < lines.length, (c.chunks r).cState ≠ .finished →
        (∀ p rcvr, getReceiver c.receiverPool (some p) = some rcvr → rcvr.chunk ≠ r) →
          (c'.chunks r).data = contents r := by
  have hkeys := nodup_hash_start max hdistinct
  -- first the receivers go
  obtain ⟨c₁, hreach₁, hfreed⟩ := hsane.exists_freed shahash contents hkeys hqueued
    (c.receiverPool.workers.map Receiver.pSender)
  have hsane₁ := hsane.reachesBy hreach₁
  have hgone₁ : ∀ p, getReceiver c₁.receiverPool (some p) = none := by
    intro p
    by_cases hp : p ∈ c.receiverPool.workers.map Receiver.pSender
    · exact hfreed.gone p hp
    · rw [hfreed.others p hp, getReceiver_eq_find, Keyed.find_eq_none_iff]
      rintro w hw rfl
      exact hp (List.mem_map_of_mem hw)
  -- then the chunks are announced
  have hline : ∀ r ∈ c₁.downChunks, checkChunk shahash (contents r) (c₁.chunks r).sha1 = true := by
    intro r hr
    rw [hfreed.down] at hr
    have hlt : r < lines.length := List.mem_range.mp
      (hsane.consistent.holdsRequest.queues.mem_iff.mp (List.mem_append_left _ hr))
    rw [hsane₁.consistent.sha1, chunks_start max hlt]
    exact hright r _ (List.getElem?_eq_getElem hlt)
  obtain ⟨c₂, hreach₂, hgrown, hheld⟩ := exists_announced shahash contents c₁.downChunks
    (fun r hr ↦ hsane₁.consistent.isFirst hkeys hr)
    (fun r hr ↦ ⟨_, hsize _, ((checkChunk_iff (hsize _)).mp (hline r hr)).symm⟩)
  have hsane₂ := hsane₁.reachesBy hreach₂
  have hfetches : Fetches shahash contents (start max lines) c₂ := by
    refine ⟨hsane₂, hmax, fun p ↦ ?_, fun r hr ↦ ?_, fun r hr ↦ ?_⟩
    · rw [hgrown.pool]
      exact hgone₁ p
    · exact hheld r (hgrown.down ▸ hr)
    · rw [hgrown.same.sha1]
      exact hline r (hgrown.down ▸ hr)
  -- and asked for
  obtain ⟨c', hreach, hended, hgone⟩ := hfetches.exists_ended hkeys
  have hholds := (hsane₂.reachesBy hreach).consistent.holdsRequest
  refine ⟨c', (hreach₁.trans hreach₂).trans hreach, pthreadReceiver_eq_none_iff.mpr hended.empty,
    hholds.done_of_empty hended.empty, hgone, fun r hr hopen hidle ↦ ?_⟩
  have hmem : r ∈ c.downChunks ++ c.doneChunks :=
    hsane.consistent.holdsRequest.queues.mem_iff.mpr (List.mem_range.mpr hr)
  have hmem₂ : r ∈ c₂.downChunks ++ c₂.doneChunks := by
    rwa [hgrown.down, hgrown.done, hfreed.down, hfreed.done]
  rw [hended.data r hmem₂, if_neg]
  rw [hgrown.same.cState, (hfreed.idle r hmem hidle).2]
  exact hopen

end Client

end BitTorrent
