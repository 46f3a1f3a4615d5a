import BitTorrent.Link.Origin
import BitTorrent.Link.Single
import BitTorrent.Upload.Progress

/-!
# A packet of an earlier transfer

Two chunks are fetched from the same peer, one after the other.  A duplicate of the
first packet of the first chunk outlives its transfer and is stored at the start of
the second chunk.
-/

namespace BitTorrent

namespace Link

/-! ## The second request -/

/-- A pool in which no peer finds a receiver is empty. -/
theorem workers_eq_nil {pool : ReceiverPool} (h : ∀ p, getReceiver pool (some p) = none) :
    pool.workers = [] := by
  rw [List.eq_nil_iff_forall_not_mem]
  intro w hw
  exact Keyed.find_eq_none_iff.mp (h w.pSender) w hw rfl

/-- With room for one receiver and none attached, `look_at` asks for the chunk with
fewer holders, whatever has become of the other one. -/
theorem lookAt_second {c : Client} {p : PeerRef} (hdown : c.downChunks = [0, 1])
    (hfirst : 1 < (c.chunks 0).holders.length) (hsecond : (c.chunks 1).holders = [some p])
    (hready : (c.chunks 1).cState ≠ .finished) (hmax : c.receiverPool.maxNum = 1)
    (hcounts : c.receiverPool.Counts) (hempty : c.receiverPool.workers = []) :
    ∃ pool, c.lookAt = (c.scanned.attached 1 pool, [(p, c.getPKT 1)]) ∧
      getReceiver c.receiverPool (some p) = none ∧ addReceiver c.receiverPool p 1 = some pool := by
  have hcur : c.receiverPool.curNum = 0 := by rw [hcounts, hempty]; rfl
  have hroom : ¬ c.receiverPool.maxNum ≤ c.receiverPool.curNum := by rw [hmax, hcur]; decide
  have hnone : ∀ q, getReceiver c.receiverPool q = none := by
    rintro (_ | q)
    · rfl
    · rw [getReceiver_eq_find, hempty]
      rfl
  have hchoose : ∃ first rest, c.scanned.downChunks = first :: rest ∧
      chooseChunkToDownload c.chunks first (first :: rest) = 1 := by
    show ∃ first rest, (scanChunkDone c.chunks c.downChunks c.doneChunks).1 = _ ∧ _
    rw [Client.scanChunkDone_eq, hdown]
    by_cases hfin : (c.chunks 0).cState = .finished
    · refine ⟨1, [], by simp [hfin, hready], ?_⟩
      simp [chooseChunkToDownload]
    · refine ⟨0, [1], by simp [hfin, hready], ?_⟩
      simp [chooseChunkToDownload, hsecond, hfirst]
  obtain ⟨first, rest, hscan, hone⟩ := hchoose
  have hadd : addReceiver c.receiverPool p 1 = some _ := if_neg hroom
  refine ⟨_, ?_, hnone (some p), hadd⟩
  have hpick : Client.pickHolder c.scanned.receiverPool none (c.scanned.chunks 1).holders = some p := by
    show Client.pickHolder c.receiverPool none (c.chunks 1).holders = _
    rw [hsecond, Client.pickHolder, if_pos (hnone _)]
  rw [Client.lookAt_eq, if_neg hroom, hscan]
  show c.scanned.lookAtChunk (chooseChunkToDownload c.chunks first (first :: rest)) = _
  rw [hone]
  exact Client.lookAtChunk_of_free hpick (hnone (some p)) hadd

/-! ## Two chunks of one peer -/

/-- The hash text of a chunk whose hash is twenty times the byte `n`. -/
def hashText (n : UInt8) : List UInt8 := sha1Array (List.replicate 20 [48, 48 + n]).flatten

/-- Two peers whose hash function keeps the first twenty bytes.  The first chunk is all
ones, any other is all twos. -/
def twoChunks : Ends where
  serving := 0
  downloading := 1
  shahash := fun bytes ↦ bytes.take sha1HashSize
  getDataChunk := fun hash ↦ if hash.head? = some 1 then .fill 1 else .fill 2

/-- The downloading peer wants both chunks, with one receiver at a time. -/
def startTwo : Link ℚ := start 1 [(0, hashText 1), (1, hashText 2)] 1

/-- It hears of the first chunk, asks for it, and hears of both. -/
def askFirst : List LinkEvent :=
  [.ihave (makePKT .ihave 0 24 (hashList 1 [initChunk 0 (hashText 1)])) (some 0),
    .lookAt,
    .ihave (makePKT .ihave 0 44 (hashList 2 [initChunk 0 (hashText 1), initChunk 1 (hashText 2)]))
      (some 0)]

theorem run_askFirst : ∃ l g, Machine.run (step twoChunks) startTwo askFirst = some l ∧
    l.requests = [g] ∧ l.gets = [(0, g)] ∧ l.data = [] ∧ l.acks = [] ∧
    twoChunks.content g = .fill 1 ∧ l.server = { senders := [], pool := .init 1 } ∧
    l.client.receiverPool = { maxNum := 1, curNum := 1, workers := [newReceiver 0 0] } ∧
    l.client.downChunks = [0, 1] ∧ (l.client.chunks 0).holders = [some 0, some 0] ∧
    (l.client.chunks 1).holders = [some 0] ∧ (l.client.chunks 1).cState = .ready ∧
    (l.client.chunks 0).sha1 = hashText 1 ∧ (l.client.chunks 1).sha1 = hashText 2 ∧
    (l.client.chunks 1).data = .fill 0 := by
  refine ⟨_, _, rfl, rfl, rfl, rfl, rfl, rfl, rfl, rfl, rfl, rfl, rfl, rfl, rfl, rfl, rfl⟩

/-- The first chunk is transferred, and a duplicate of its first packet is still in
flight. -/
theorem reaches_first_done : ∃ l, Machine.Reaches (step twoChunks) startTwo l ∧
    (0, dataPacket (.fill 1) 0) ∈ l.data ∧ l.client.receiverPool.Ok ∧
    l.client.receiverPool.workers = [] ∧ l.client.receiverPool.maxNum = 1 ∧
    l.client.downChunks = [0, 1] ∧ (l.client.chunks 0).holders = [some 0, some 0] ∧
    (l.client.chunks 1).holders = [some 0] ∧ (l.client.chunks 1).cState = .ready ∧
    (l.client.chunks 1).sha1 = hashText 2 ∧ (l.client.chunks 1).data = .fill 0 := by
  obtain ⟨l, g, hrun, hreq, hgets, hdata, hacks, hcontent, hserver, hpool, hdown, hholders₀, hholders₁,
    hstate, hsha₀, hsha₁, hbuffer⟩ := run_askFirst
  have hclient : l.client.receiverPool.Ok := by
    rw [hpool]
    exact ⟨rfl, List.nodup_singleton _⟩
  have hget : ∀ q, getReceiver l.client.receiverPool (some q) =
      if 0 = q then some (newReceiver 0 0) else none := by
    intro q
    rw [hpool, getReceiver_eq_find, Keyed.find_cons]
    rfl
  -- the upload of the first chunk opens
  obtain ⟨l₁, hopen, hclient₁, -, -, hcarries⟩ := carries_open (π := twoChunks) (m := (0, g))
    (hserver ▸ Server.ok_init 1) hclient (hget 0) hdata hacks (hgets ▸ List.mem_singleton_self _)
    (by rw [hserver]; rfl) (by rw [hserver]; decide)
  rw [hserver, hcontent] at hcarries
  -- its first packet is sent, and duplicated
  obtain ⟨u₁, hu₁, hlive₁, hphase, hle, hrcv₁, -⟩ :=
    (Upload.live_init 1 0 0 (.fill 1) (l.client.chunks 0).data).rewind
  obtain ⟨u₂, hu₂, hfront, hacked, hrcv₂, -⟩ := hlive₁.send_front hphase hle
  have hnone : u₂.rcvr.lastRcvd = 0 := congrArg (fun r ↦ r.rcvr.lastRcvd) (hrcv₂.trans hrcv₁)
  have hzero : u₂.sdr.lastAcked = 0 := Nat.le_zero.mp (hnone ▸ hfront.live.safe.acked_le)
  have hflight : dataPacket (.fill 1) 0 ∈ u₂.data := hzero ▸ hfront.inFlight
  obtain ⟨l₂, hl₂, hcarries₂⟩ := hcarries.reaches (hu₁.trans hu₂).reaches
  obtain ⟨f, l₃, hl₃, hcarries₃⟩ := hcarries₂.duplicate hflight
  -- the transfer runs to its end
  obtain ⟨u₄, hu₄, hstored, hrcvd⟩ :=
    hfront.live.progress_to (hnone ▸ show 0 < dataPktNum by decide) (Nat.le_refl _)
  obtain ⟨l₄, hl₄, hcarries₄⟩ := hcarries₃.reaches hu₄.reaches
  have hclosed : ¬ u₄.receiving.opened = true := by
    rw [hstored.live.safe.receiving.opened_iff]
    exact Nat.not_lt_of_le (Nat.le_of_eq hrcvd.symm)
  have hframe : l.client.DeliveryFrame l₄.client 0 0 := hclient₁ ▸ hcarries₄.frame
  have hfree : ∀ q, getReceiver l₄.client.receiverPool (some q) = none := by
    intro q
    by_cases hq : 0 = q
    · subst hq
      exact hcarries₄.conn.get.trans (if_neg hclosed)
    · rw [hframe.others q hq, hget, if_neg hq]
  have hhash : (l.client.chunks 1).hash ≠ (l.client.chunks 0).hash := by
    rw [ChunkT.hash, ChunkT.hash, hsha₀, hsha₁]
    decide
  refine ⟨l₄, ?_, ?_, hframe.pool, workers_eq_nil hfree, ?_, ?_, ?_, ?_, ?_, ?_, ?_⟩
  · exact (Machine.Reaches.trans ⟨_, hrun⟩ (.single hopen)).trans
      (hl₂.trans ((Machine.Reaches.single hl₃).trans hl₄))
  · rw [hcarries₄.data]
    exact List.mem_append_right _ (List.mem_cons_self ..)
  · rw [hframe.maxNum, hpool]
  · rw [hframe.down, hdown]
  · rw [hframe.holders, hholders₀]
  · rw [hframe.holders, hholders₁]
  · rw [hframe.cState 1 hhash, hstate]
  · rw [hframe.sha1, hsha₁]
  · rw [hframe.data 1 (by decide), hbuffer]

/-- A packet of the first chunk is none of the second one's. -/
theorem not_mem_other_chunk : dataPacket (.fill 1) 0 ∉ (chunk2pkts (.fill 2)).1 := by
  intro h
  obtain ⟨i, hi, heq⟩ := mem_chunk2pkts.mp h
  have hseq := congrArg (fun q : Packet ↦ q.header.seqNum.toNat) heq
  simp only [seqNum_dataPacket hi, seqNum_dataPacket (show 0 < dataPktNum by decide)] at hseq
  obtain rfl : i = 0 := Nat.succ_inj.mp hseq
  have hhead := congrArg (fun q : Packet ↦ q.data.head?) heq
  simp only [data_dataPacket, Nat.zero_mul, List.drop_zero, ChunkData.fill, List.take_replicate] at hhead
  revert hhead
  decide

/-- The duplicate is then stored in the buffer of the second chunk: a DATA packet that
changes a buffer need not have been built for the chunk last asked for. -/
theorem transfers_mixed :
    ¬ ∀ (es : List LinkEvent) (l l' : Link ℚ) (m : SenderRef × Packet) (r : ChunkRef),
      Machine.run (step twoChunks) startTwo es = some l →
      l.step twoChunks (.deliverData m) = some l' →
      (l'.client.chunks r).data ≠ (l.client.chunks r).data →
      ∃ g, l.requests.getLast? = some g ∧ m.2 ∈ (chunk2pkts (twoChunks.content g)).1 := by
  intro h
  obtain ⟨l, ⟨es, hrun⟩, hflight, hok, hempty, hmax, hdown, hholders₀, hholders₁, hstate, hsha₁,
    hbuffer⟩ := reaches_first_done
  obtain ⟨pool, hlook, hfree, hadd⟩ := lookAt_second hdown (by rw [hholders₀]; decide) hholders₁
    (by rw [hstate]; decide) hmax hok.counts hempty
  have hpool : pool.Ok := hok.add hfree hadd
  have hget : getReceiver pool (some 0) = some (newReceiver 0 1) :=
    (getReceiver_addReceiver hfree hadd hok.counts).trans (if_pos rfl)
  -- the second chunk is asked for
  let c := l.client.scanned.attached 1 pool
  have hasks : l.asks twoChunks = [l.client.getPKT 1] := by
    rw [asks, hlook]
    rfl
  let l₁ : Link ℚ :=
    { l with
      client := c
      gets := [(l.requests.length, l.client.getPKT 1)] ++ l.gets
      requests := l.requests ++ [l.client.getPKT 1] }
  have hsecond : l.step twoChunks .lookAt = some l₁ := by
    rw [step, hasks, hlook]
    rfl
  -- and the duplicate arrives
  obtain ⟨chunk, hproc, hbytes⟩ := Receiving.processDATA_first (.fill 1) 0 1 (c.chunks 1).data
  obtain ⟨c', hc', hconn, -⟩ :=
    (Client.connection_of_get (c := c) hget).processDATA twoChunks.shahash hpool hproc
  have hold : (c.chunks 1).data = .fill 0 := (data_updateState ..).trans hbuffer
  have hnew : (c'.chunks 1).data = chunk := hconn.data
  have hchanged : (c'.chunks 1).data ≠ (c.chunks 1).data := by
    rw [hnew, hold]
    intro heq
    have hone : chunk.bytes.take 1 = [1] := by
      rw [hbytes, Bytes.take_blend_of_le (by decide) (by rw [ChunkData.size_eq]; decide),
        ChunkData.fill, List.take_replicate]
      rfl
    rw [heq, ChunkData.fill, List.take_replicate] at hone
    revert hone
    decide
  obtain ⟨l₂, harrives, hclient⟩ : ∃ l₂, l₁.step twoChunks (.deliverData (0, dataPacket (.fill 1) 0)) =
      some l₂ ∧ l₂.client = c' := ⟨_, (if_pos hflight).trans (congrArg (Option.map _) hc'), rfl⟩
  obtain ⟨g, hlast, hmem⟩ := h (es ++ [.lookAt]) l₁ l₂ (0, dataPacket (.fill 1) 0) 1
    (Machine.run_trans hrun (Machine.run_single hsecond)) harrives (by rw [hclient]; exact hchanged)
  rw [List.getLast?_concat, Option.some.injEq] at hlast
  have hcontent : twoChunks.content g = .fill 2 := by
    rw [← hlast, Client.getPKT, hsha₁]
    rfl
  rw [hcontent] at hmem
  exact not_mem_other_chunk hmem

end Link

end BitTorrent
