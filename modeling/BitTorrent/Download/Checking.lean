import BitTorrent.Download.Holders
import BitTorrent.Download.Sharing

/-!
# A chunk that fails its check

Once a chunk has arrived, `process_DATA` checks it and marks it `FINISHED`, or `READY` so that it
is fetched again.  `update_state` moves a chunk on to a later state only, and a chunk with a
receiver is past `READY` already: the second mark is never set.
-/

namespace BitTorrent

/-- The packet is the one that `rcvr` waits for, and the last one of its chunk. -/
def Receiver.Ends (rcvr : Receiver) (pkt : Packet) : Prop :=
  rcvr.Expects pkt ∧ btChunkSize ≤ rcvr.nextExpected * dataSize

/-- These are the packets that bring a receiver to the end of its chunk. -/
theorem Receiver.complete_store_iff {rcvr rcvr' : Receiver} {data data' : ChunkData} {pkt : Packet}
    (h : rcvr.store data pkt = some (rcvr', data')) (hopen : ¬ rcvr.Complete) :
    rcvr'.Complete ↔ rcvr.Ends pkt := by
  by_cases hexp : rcvr.Expects pkt
  · rw [Receiver.Complete, Receiver.lastRcvd_of_store h hexp]
    exact ⟨fun hc ↦ ⟨hexp, hc⟩, And.right⟩
  · rw [Receiver.store_of_ne hexp, Option.some.injEq, Prod.mk.injEq] at h
    rw [← h.1]
    exact iff_of_false hopen fun hc ↦ hexp hc.1

/-- No chunk is made `READY`. -/
theorem updateState_ready (store : ChunkStore) (down : List ChunkRef) (chunk : ChunkRef) :
    updateState store down chunk .ready = store := by
  rcases updateState_cases store down chunk .ready with heq | ⟨r, -, hlt, -⟩
  · exact heq
  · exact absurd hlt (Nat.not_lt_zero _)

/-- A chunk that has left `READY` does not come back to it. -/
theorem cState_updateState_ne_ready {store : ChunkStore} {down : List ChunkRef} {chunk r : ChunkRef}
    {new : ChunkState} (h : (store r).cState ≠ .ready) :
    (updateState store down chunk new r).cState ≠ .ready := by
  rcases updateState_cases store down chunk new with heq | ⟨r', -, hlt, heq⟩
  · rw [heq]
    exact h
  · rw [heq]
    by_cases hr : r = r'
    · subst hr
      rw [Function.update_self]
      rintro rfl
      exact Nat.not_lt_zero _ hlt
    · rw [Function.update_of_ne hr]
      exact h

namespace Client

variable {shahash : List UInt8 → List UInt8} {c₀ c c' : Client} {max : Int}
  {lines : List (Int × List UInt8)} {peer : Option PeerRef} {rcvr : Receiver} {pkt : Packet}

/-! ## Chunks with a receiver -/

/-- The chunks that are fetched are in one of the queues, and past `READY`. -/
structure Begun (c₀ c : Client) : Prop where
  consistent : c₀.Consistent c
  queued : ∀ r ∈ c.receiverPool.workers, r.chunk ∈ c.downChunks ++ c.doneChunks
  begun : ∀ r ∈ c.receiverPool.workers, (c.chunks r.chunk).cState ≠ .ready

theorem begun_start (max : Int) (lines : List (Int × List UInt8)) :
    (start max lines).Begun (start max lines) where
  consistent := consistent_start max lines
  queued _ hr := absurd hr List.not_mem_nil
  begun _ hr := absurd hr List.not_mem_nil

/-- By its hash a chunk of the queues is found if it is still to be downloaded, and nothing is
found if it is done. -/
theorem Consistent.containsChunk_cases (h : c₀.Consistent c)
    (hdistinct : ((c₀.downChunks ++ c₀.doneChunks).map fun r ↦ (c₀.chunks r).hash).Nodup)
    {r : ChunkRef} (hr : r ∈ c.downChunks ++ c.doneChunks) :
    containsChunk c.chunks c.downChunks (c.chunks r).hash = some r ∨
      containsChunk c.chunks c.downChunks (c.chunks r).hash = none ∧
        (c.chunks r).cState = .finished := by
  cases hfound : containsChunk c.chunks c.downChunks (c.chunks r).hash with
  | none =>
      refine .inr ⟨rfl, ?_⟩
      rcases List.mem_append.mp hr with hdown | hdone
      · obtain ⟨r', hr'⟩ := exists_isFirst hdown
        rw [hfound] at hr'
        cases hr'
      · exact h.done r hdone
  | some r' =>
      obtain ⟨hmem, hhash, -⟩ := containsChunk_eq_some hfound
      rw [h.hash_inj hdistinct (List.mem_append_left _ hmem) hr hhash]
      exact .inl rfl

/-- A chunk to which `look_at` attaches a receiver is marked `DOWNLOADING`. -/
theorem Begun.lookAt (h : c₀.Begun c)
    (hdistinct : ((c₀.downChunks ++ c₀.doneChunks).map fun r ↦ (c₀.chunks r).hash).Nodup) :
    c₀.Begun c.lookAt.1 := by
  have hstep : c.step id .lookAt = some c.lookAt.1 := rfl
  have hconsistent : c₀.Consistent c.lookAt.1 := h.consistent.step hstep
  have hqueued : ∀ r ∈ c.receiverPool.workers,
      r.chunk ∈ c.scanned.downChunks ++ c.scanned.doneChunks := fun r hr ↦
    (scanChunkDone_perm c.chunks c.downChunks c.doneChunks).mem_iff.mpr (h.queued r hr)
  by_cases hattaches : ∃ down p, c.Attaches down p
  · obtain ⟨down, p, hattaches⟩ := hattaches
    obtain ⟨pool', heq, -, hmem⟩ := hattaches.lookAt_workers h.consistent.pool
    have hdown : down ∈ c.scanned.downChunks := mem_downChunks_scanned.mpr hattaches.mem
    have hmark : (updateState c.scanned.chunks c.scanned.downChunks down .downloading down).cState ≠
        .ready := by
      rcases h.consistent.scanned.containsChunk_cases hdistinct (List.mem_append_left _ hdown) with
        hfound | ⟨-, hfin⟩
      · by_cases hready : (c.scanned.chunks down).cState = .ready
        · rw [updateState, hfound]
          simp [hready, ChunkState.code]
        · exact cState_updateState_ne_ready hready
      · exact absurd hfin hattaches.mem.2
    rw [heq] at hconsistent ⊢
    refine ⟨hconsistent, ?_, ?_⟩
    · intro r hr
      rcases hmem r hr with hr | rfl
      · exact hqueued r hr
      · exact List.mem_append_left _ hdown
    · intro r hr
      rcases hmem r hr with hr | rfl
      · exact cState_updateState_ne_ready (h.begun r hr)
      · exact hmark
  · have heq := lookAt_of_not_attaches fun down p hc ↦ hattaches ⟨down, p, hc⟩
    rw [heq] at hconsistent ⊢
    exact ⟨hconsistent, hqueued, h.begun⟩

/-- An IHAVE packet changes neither states nor receivers. -/
theorem Begun.ihave (h : c₀.Begun c) (hstep : c.step shahash (.ihave pkt peer) = some c') :
    c₀.Begun c' := by
  obtain ⟨hsame, hdown, hdone, hpool⟩ := processIHAVE_frame hstep
  refine ⟨h.consistent.step hstep, ?_, ?_⟩
  · intro r hr
    rw [hpool] at hr
    rw [hdown, hdone]
    exact h.queued r hr
  · intro r hr
    rw [hpool] at hr
    rw [hsame.cState]
    exact h.begun r hr

/-- A DATA packet moves no receiver to another chunk and no chunk back to `READY`. -/
theorem Begun.data (h : c₀.Begun c) (hstep : c.step shahash (.data pkt peer) = some c') :
    c₀.Begun c' := by
  have hconsistent := h.consistent.step hstep
  obtain ⟨⟨c'', acks⟩, hproc, rfl⟩ := Option.map_eq_some_iff.mp hstep
  rcases processDATA_cases h.consistent.pool hproc with rfl | ⟨p, rcvr, r', rfl, hget, hstore, -,
    hconn, hframe, hchunks⟩
  · exact h
  have hchunk : r'.rcvr.chunk = rcvr.chunk := (Receiver.store_frame hstore).2
  -- a worker after the delivery fetches the chunk of one from before
  have hcases : ∀ r ∈ c''.receiverPool.workers, ∃ r₀ ∈ c.receiverPool.workers, r.chunk = r₀.chunk := by
    intro r hr
    rcases hframe.workers_cases h.consistent.pool hconn hr with ⟨hmem, -⟩ | ⟨rfl, -⟩
    · exact ⟨r, hmem, rfl⟩
    · exact ⟨rcvr, (mem_of_getReceiver hget).1, hchunk⟩
  have hstate : ∀ r, (c.chunks r).cState ≠ .ready → (c''.chunks r).cState ≠ .ready := by
    intro r hr
    rw [← cState_setData c rcvr.chunk r'.chunk r] at hr
    rw [hchunks, storeAfter]
    split
    · exact hr
    · exact cState_updateState_ne_ready hr
  refine ⟨hconsistent, ?_, ?_⟩
  · intro r hr
    obtain ⟨r₀, hr₀, heq⟩ := hcases r hr
    rw [hframe.down, hframe.done, heq]
    exact h.queued r₀ hr₀
  · intro r hr
    obtain ⟨r₀, hr₀, heq⟩ := hcases r hr
    rw [heq]
    exact hstate _ (h.begun r₀ hr₀)

theorem begun_of_run {es : List DownloadEvent}
    (hdistinct : (lines.map fun l ↦ l.2.take (2 * sha1HashSize)).Nodup)
    (hrun : Machine.run (step shahash) (start max lines) es = some c) : (start max lines).Begun c := by
  refine Machine.invariant ?_ hrun (begun_start max lines)
  intro c e c' h hstep
  cases e with
  | lookAt =>
      cases hstep
      exact h.lookAt (nodup_hash_start max hdistinct)
  | ihave pkt peer => exact h.ihave hstep
  | data pkt peer => exact h.data hstep

/-! ## The last packet of a chunk -/

/-- The buffer of the receiver's chunk with the payload of `pkt` in its place. -/
def assembled (c : Client) (rcvr : Receiver) (pkt : Packet) : Option ChunkData :=
  (c.chunks rcvr.chunk).data.memcpy (rcvr.lastRcvd * dataSize) pkt.data pkt.header.payloadLen

/-- The payload fits into packet and buffer, and the data assembled with it has the right hash. -/
def Passes (shahash : List UInt8 → List UInt8) (c : Client) (rcvr : Receiver) (pkt : Packet) : Prop :=
  ∃ data, c.assembled rcvr pkt = some data ∧
    checkChunk shahash data (c.chunks rcvr.chunk).sha1 = true

/-- The receiver is gone, its chunk is marked by whether its data is right, and no other chunk
has another mark. -/
structure Judged (shahash : List UInt8 → List UInt8) (c c' : Client) (rcvr : Receiver) : Prop where
  right : checkChunk shahash (c'.chunks rcvr.chunk).data (c'.chunks rcvr.chunk).sha1 = true →
    (c'.chunks rcvr.chunk).cState = .finished
  wrong : checkChunk shahash (c'.chunks rcvr.chunk).data (c'.chunks rcvr.chunk).sha1 = false →
    (c'.chunks rcvr.chunk).cState = .ready
  gone : getReceiver c'.receiverPool (some rcvr.pSender) = none
  others : ∀ r, r ≠ rcvr.chunk → (c'.chunks r).cState = (c.chunks r).cState

/-- The expected packet is stored exactly if the copy stays within its bounds. -/
theorem store_iff_assembled (hexp : rcvr.Expects pkt) {data : ChunkData} :
    (∃ rcvr', rcvr.store (c.chunks rcvr.chunk).data pkt = some (rcvr', data)) ↔
      c.assembled rcvr pkt = some data := by
  rw [Receiver.store, if_pos hexp]
  constructor
  · rintro ⟨rcvr', h⟩
    obtain ⟨d, hd, heq⟩ := Option.map_eq_some_iff.mp h
    cases heq
    exact hd
  · intro h
    rw [assembled] at h
    rw [h]
    exact ⟨_, rfl⟩

/-- What the last packet of a chunk does. -/
theorem Begun.processDATA_ends (h : c₀.Begun c) (hget : getReceiver c.receiverPool peer = some rcvr)
    (hends : rcvr.Ends pkt) {acks : List Packet}
    (hproc : c.processDATA shahash pkt peer = some (c', acks)) :
    ∃ data, c.assembled rcvr pkt = some data ∧ (c'.chunks rcvr.chunk).data = data ∧
      (∀ r, (c'.chunks r).sha1 = (c.chunks r).sha1) ∧
      getReceiver c'.receiverPool (some rcvr.pSender) = none ∧
      c'.chunks = updateState (c.setData rcvr.chunk data).chunks c.downChunks rcvr.chunk
        (if checkChunk shahash data (c.chunks rcvr.chunk).sha1 then .finished else .ready) := by
  obtain ⟨p, rfl⟩ := exists_peer_of_getReceiver hget
  obtain ⟨r', hstore, hopened, hconn, hframe, hchunks⟩ :=
    processDATA_of_get h.consistent.pool hget hproc
  have hclosed : r'.opened = false := by
    rw [hopened, decide_eq_true ((Receiver.complete_store_iff hstore
      (h.consistent.incomplete p rcvr hget)).mpr hends)]
    rfl
  refine ⟨r'.chunk, (store_iff_assembled hends.1).mp ⟨_, hstore⟩, ?_, hframe.sha1, ?_, ?_⟩
  · rw [← (Receiver.store_frame hstore).2]
    exact hconn.data
  · rw [(mem_of_getReceiver hget).2, hconn.get, hclosed, if_neg Bool.false_ne_true]
  · rw [hchunks, storeAfter, hclosed, if_neg Bool.false_ne_true]

/-- The chunk is marked as it should be exactly if its data is right. -/
theorem Begun.judged_iff (h : c₀.Begun c)
    (hdistinct : ((c₀.downChunks ++ c₀.doneChunks).map fun r ↦ (c₀.chunks r).hash).Nodup)
    (hget : getReceiver c.receiverPool peer = some rcvr) (hends : rcvr.Ends pkt) :
    (∃ c' acks, c.processDATA shahash pkt peer = some (c', acks) ∧ Judged shahash c c' rcvr) ↔
      c.Passes shahash rcvr pkt := by
  obtain ⟨p, rfl⟩ := exists_peer_of_getReceiver hget
  have hrcvr := (mem_of_getReceiver hget).1
  constructor
  · rintro ⟨c', acks, hproc, hjudged⟩
    obtain ⟨data, hdata, hbuf, hsha1, -, hchunks⟩ := h.processDATA_ends hget hends hproc
    refine ⟨data, hdata, ?_⟩
    by_contra hbad
    -- the chunk would have to go back
    apply h.begun rcvr hrcvr
    have hready := hjudged.wrong (by rw [hbuf, hsha1]; exact Bool.eq_false_of_not_eq_true hbad)
    rw [hchunks, if_neg hbad, updateState_ready, cState_setData] at hready
    exact hready
  · rintro ⟨data, hdata, hgood⟩
    obtain ⟨rcvr', hstore⟩ := (store_iff_assembled hends.1).mpr hdata
    obtain ⟨⟨c', acks⟩, hproc⟩ : ∃ out, c.processDATA shahash pkt (some p) = some out := by
      rw [processDATA, hget]
      simp only [hstore]
      exact ⟨_, rfl⟩
    obtain ⟨data', hdata', hbuf, hsha1, hgone, hchunks⟩ := h.processDATA_ends hget hends hproc
    cases hdata.symm.trans hdata'
    rw [if_pos hgood] at hchunks
    have hfound := h.consistent.containsChunk_cases hdistinct (h.queued rcvr hrcvr)
    rw [← containsChunk_congr (sha1_setData c rcvr.chunk data)] at hfound
    rw [show (c.chunks rcvr.chunk).hash = ((c.setData rcvr.chunk data).chunks rcvr.chunk).hash from
      congrArg (List.take _) (sha1_setData ..).symm] at hfound
    refine ⟨c', acks, hproc, ?_, ?_, hgone, ?_⟩
    · intro _
      rw [hchunks]
      rcases hfound with hfound | ⟨hnone, hfin⟩
      · exact cState_updateState_finished hfound
      · rw [← cState_setData c rcvr.chunk data] at hfin
        rw [updateState_of_finished hfin]
        exact hfin
    · intro hbad
      rw [hbuf, hsha1, hgood] at hbad
      cases hbad
    · intro r hr
      rw [hchunks, ← cState_setData c rcvr.chunk data r]
      rcases updateState_cases (c.setData rcvr.chunk data).chunks c.downChunks rcvr.chunk .finished with
        heq | ⟨r', hr', -, heq⟩
      · rw [heq]
      · rcases hfound with hfound | ⟨hnone, -⟩
        · rw [hfound] at hr'
          cases hr'
          rw [heq, Function.update_of_ne hr]
        · rw [hnone] at hr'
          cases hr'

/-- Two holders are attached, and the first has sent all packets of `content` but the last. -/
def untilLast (content : ChunkData) : List DownloadEvent :=
  attach ++ ((List.range 374).map (dataPacket content)).map fun q ↦ .data q (some 0)

/-- The last packet then decides about the content. -/
theorem run_untilLast (content : ChunkData) : ∃ c rcvr,
    Machine.run (step firstBytes) (start 2 zeroLine) (untilLast content) = some c ∧
      getReceiver c.receiverPool (some 0) = some rcvr ∧ rcvr.Ends (dataPacket content 374) ∧
      (c.Passes firstBytes rcvr (dataPacket content 374) ↔
        checkChunk firstBytes content (sha1Array (List.replicate 40 48)) = true) := by
  obtain ⟨c, hrun, -, hworkers, hcount, hsha1, -⟩ := run_attach
  obtain ⟨hpool, hget⟩ := receivers_attach hworkers hcount
  obtain ⟨c₁, r₁, hrun₁, hfill, hrcvd, hproc⟩ :=
    run_but_last content firstBytes hpool (hget 0 (by decide))
  have hopen : r₁.opened = true := hfill.ok.opened_iff.mpr (by rw [hrcvd]; decide)
  have hnext : r₁.rcvr.nextExpected = 375 := by rw [hfill.ok.next_eq, hrcvd]
  have hends : r₁.rcvr.Ends (dataPacket content 374) := by
    refine ⟨?_, by rw [hnext]; decide⟩
    rw [Receiver.Expects, seqNum_dataPacket (by decide), hnext]
  have hchunk : r₁.rcvr.chunk = 0 := by rw [hfill.rcvr]; rfl
  have hassembled : c₁.assembled r₁.rcvr (dataPacket content 374) = some content := by
    rw [Receiving.processDATA, if_pos hopen, Option.map_eq_some_iff] at hproc
    obtain ⟨⟨rcvr', data⟩, hstore, heq⟩ := hproc
    have hdata : data = content := congrArg (fun out ↦ out.1.chunk) heq
    rw [hdata] at hstore
    rw [← store_iff_assembled hends.1, hfill.conn.data]
    exact ⟨rcvr', hstore⟩
  refine ⟨c₁, r₁.rcvr, ?_, ?_, hends, ?_⟩
  · exact Machine.run_trans hrun ((run_data c 0 _).trans hrun₁)
  · rw [hfill.conn.get, if_pos hopen]
  · rw [Passes, hassembled, hchunk, hfill.frame.sha1, hsha1]
    constructor
    · rintro ⟨data, heq, hgood⟩
      rw [Option.some.inj heq]
      exact hgood
    · intro hgood
      exact ⟨content, rfl, hgood⟩

/-- In every state of a download whose chunks have distinct hashes, and for every DATA packet
that brings a receiver to the end of its chunk: `process_DATA` removes the receiver, marks the
chunk by whether its data is right and changes no other mark, exactly if the data is right. -/
theorem judged_iff_passes {es : List DownloadEvent}
    (hdistinct : (lines.map fun l ↦ l.2.take (2 * sha1HashSize)).Nodup)
    (hrun : Machine.run (step shahash) (start max lines) es = some c)
    (hget : getReceiver c.receiverPool peer = some rcvr) (hends : rcvr.Ends pkt) :
    (∃ c' acks, c.processDATA shahash pkt peer = some (c', acks) ∧ Judged shahash c c' rcvr) ↔
      c.Passes shahash rcvr pkt :=
  (begun_of_run hdistinct hrun).judged_iff (nodup_hash_start max hdistinct) hget hends

/-- A chunk of zeros, which has the hash asked for. -/
theorem judged_iff_passes_zeros : ∃ c c' rcvr acks,
    Machine.run (step firstBytes) (start 2 zeroLine) (untilLast (.fill 0)) = some c ∧
      c.processDATA firstBytes (dataPacket (.fill 0) 374) (some 0) = some (c', acks) ∧
      Judged firstBytes c c' rcvr := by
  obtain ⟨c, rcvr, hrun, hget, hends, hpasses⟩ := run_untilLast (.fill 0)
  have hdistinct : (zeroLine.map fun l ↦ l.2.take (2 * sha1HashSize)).Nodup := List.nodup_singleton _
  have hgood : checkChunk firstBytes (.fill 0) (sha1Array (List.replicate 40 48)) = true := by
    rw [checkChunk, firstBytes_fill]
    decide
  obtain ⟨c', acks, hproc, hjudged⟩ :=
    (judged_iff_passes hdistinct hrun hget hends).mpr (hpasses.mpr hgood)
  exact ⟨c, c', rcvr, acks, hrun, hproc, hjudged⟩

/-- A holder that sends ones: the chunk keeps the mark `DOWNLOADING`. -/
theorem not_judged : ¬ ∀ (shahash : List UInt8 → List UInt8) (max : Int)
    (lines : List (Int × List UInt8)) (es : List DownloadEvent) (c : Client)
    (peer : Option PeerRef) (rcvr : Receiver) (pkt : Packet),
    (lines.map fun l ↦ l.2.take (2 * sha1HashSize)).Nodup →
    Machine.run (step shahash) (start max lines) es = some c →
    getReceiver c.receiverPool peer = some rcvr → rcvr.Ends pkt →
      ∃ c' acks, c.processDATA shahash pkt peer = some (c', acks) ∧ Judged shahash c c' rcvr := by
  intro h
  obtain ⟨c, rcvr, hrun, hget, hends, hpasses⟩ := run_untilLast (.fill 1)
  have hdistinct : (zeroLine.map fun l ↦ l.2.take (2 * sha1HashSize)).Nodup := List.nodup_singleton _
  have hbad : ¬ checkChunk firstBytes (.fill 1) (sha1Array (List.replicate 40 48)) = true := by
    rw [checkChunk, firstBytes_fill]
    decide
  apply hbad
  rw [← hpasses, ← (begun_of_run hdistinct hrun).judged_iff (nodup_hash_start 2 hdistinct) hget hends]
  exact h firstBytes 2 zeroLine _ c _ rcvr _ hdistinct hrun hget hends

end Client

end BitTorrent
