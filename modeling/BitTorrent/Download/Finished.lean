import BitTorrent.Download.Reassembly
import BitTorrent.Download.Sharing

/-!
# Finished chunks

A chunk is marked finished when the receiver that completed it finds its hash
right.  The mark is kept while another receiver attached to the same chunk goes
on writing into its buffer, and it is set on whatever record `update_state` finds
by hash.  As long as neither happens, every finished chunk has the right hash and
`chunks2file` writes them all.
-/

namespace BitTorrent

namespace Client

variable {shahash : List UInt8 → List UInt8} {c₀ c c' : Client}

/-! ## Runs without a second receiver -/

/-- Every finished chunk passes its check. -/
def Checked (shahash : List UInt8 → List UInt8) (c : Client) : Prop :=
  ∀ r, (c.chunks r).cState = .finished →
    checkChunk shahash (c.chunks r).data (c.chunks r).sha1 = true

/-- A DATA packet is accepted for a chunk that is not finished, and if it is the
last one, no other unfinished record of the queue stands in for that chunk. -/
def Exclusive (c : Client) : DownloadEvent → Prop
  | .data pkt peer => ∀ rcvr, getReceiver c.receiverPool peer = some rcvr → rcvr.Expects pkt →
      (c.chunks rcvr.chunk).cState ≠ .finished ∧
      (btChunkSize ≤ rcvr.nextExpected * dataSize → ∀ r,
        containsChunk c.chunks c.downChunks (c.chunks rcvr.chunk).hash = some r →
          r = rcvr.chunk ∨ (c.chunks r).cState = .finished)
  | _ => True

/-- A state that is not `FINISHED` sets no mark. -/
theorem checked_updateState {store : ChunkStore} {down : List ChunkRef} {chunk : ChunkRef}
    {new : ChunkState}
    (h : ∀ r, (store r).cState = .finished → checkChunk shahash (store r).data (store r).sha1 = true)
    (hnew : new = .finished → ∀ r, containsChunk store down (store chunk).hash = some r →
      checkChunk shahash (store r).data (store r).sha1 = true) :
    ∀ r, (updateState store down chunk new r).cState = .finished →
      checkChunk shahash (updateState store down chunk new r).data
        (updateState store down chunk new r).sha1 = true := by
  intro r hfin
  rw [data_updateState, sha1_updateState]
  rcases updateState_cases store down chunk new with heq | ⟨r', hfound, -, heq⟩
  · rw [heq] at hfin
    exact h r hfin
  · rw [heq] at hfin
    by_cases hr : r = r'
    · subst hr
      rw [Function.update_self] at hfin
      exact hnew hfin r hfound
    · rw [Function.update_of_ne hr] at hfin
      exact h r hfin

/-- The buffer of an unfinished chunk may change. -/
theorem Checked.setData (h : c.Checked shahash) {chunk : ChunkRef}
    (hopen : (c.chunks chunk).cState ≠ .finished) (data : ChunkData) :
    (c.setData chunk data).Checked shahash := by
  intro r hfin
  rw [cState_setData] at hfin
  have hr : r ≠ chunk := by
    rintro rfl
    exact hopen hfin
  rw [data_setData, if_neg hr, sha1_setData]
  exact h r hfin

/-- A step that meets the condition keeps the marks right. -/
theorem checked_step (hc : c₀.Consistent c) (h : c.Checked shahash) {e : DownloadEvent}
    (he : c.Exclusive e) (hstep : c.step shahash e = some c') : c'.Checked shahash := by
  cases e with
  | lookAt =>
      cases hstep
      rcases lookAt_cases c with heq | ⟨down, p, pool', -, -, heq⟩
      · rw [heq]
        exact h
      · rw [heq]
        have hs : c.scanned.Checked shahash := h
        exact checked_updateState hs fun hnew ↦ by cases hnew
  | ihave pkt peer =>
      obtain ⟨hsame, -⟩ := processIHAVE_frame hstep
      intro r hfin
      rw [hsame.data, hsame.sha1]
      exact h r ((hsame.cState r).symm.trans hfin)
  | data pkt peer =>
      obtain ⟨⟨c'', acks⟩, hproc, rfl⟩ := Option.map_eq_some_iff.mp hstep
      rcases processDATA_cases hc.pool hproc with rfl | ⟨p, rcvr, r', rfl, hget, hstore, hopened, -,
        -, hchunks⟩
      · exact h
      · by_cases hexp : rcvr.Expects pkt
        · obtain ⟨hopen, hown⟩ := he rcvr hget hexp
          have hset := h.setData hopen r'.chunk
          intro r
          rw [hchunks, storeAfter]
          split
          · exact hset r
          · next hclosed =>
            have hlast : btChunkSize ≤ rcvr.nextExpected * dataSize := by
              rw [hopened, Bool.not_eq_true', decide_eq_false_iff_not, not_not] at hclosed
              rw [← Receiver.lastRcvd_of_store hstore hexp]
              exact hclosed
            refine checked_updateState hset ?_ r
            intro hnew r₀ hfound
            rw [containsChunk_congr (sha1_setData c rcvr.chunk r'.chunk), ChunkT.hash, sha1_setData]
              at hfound
            rcases hown hlast r₀ hfound with rfl | hfin
            · rw [data_setData, if_pos rfl, sha1_setData]
              by_contra hbad
              rw [if_neg hbad] at hnew
              cases hnew
            · exact hset r₀ ((cState_setData ..).trans hfin)
        · rw [Receiver.store_of_ne hexp, Option.some.injEq, Prod.mk.injEq] at hstore
          have hstays : r'.opened = true := by
            rw [hopened, ← hstore.1]
            simpa using hc.incomplete p rcvr hget
          intro r hfin
          rw [hchunks, storeAfter, ← hstore.2, setData_self, if_pos hstays] at hfin ⊢
          exact h r hfin

/-! ## The output file -/

/-- With every chunk right, the loop of `chunks2file` writes them all. -/
theorem chunks2fileLoop_eq {store : ChunkStore} {done : List ChunkRef}
    (h : ∀ r ∈ done, checkChunk shahash (store r).data (store r).sha1 = true) :
    chunks2fileLoop shahash store done =
      done.map fun r ↦ (chunkOffset (store r).id, (store r).data) := by
  induction done with
  | nil => rfl
  | cons r done ih =>
      rw [chunks2fileLoop, if_pos (h r (List.mem_cons_self ..)),
        ih fun r' hr' ↦ h r' (List.mem_cons_of_mem _ hr'), List.map_cons]

/-- So does `chunks2file`, once nothing is left to download. -/
theorem chunks2file_eq (hdown : c.downChunks = [])
    (hcheck : ∀ r ∈ c.doneChunks, checkChunk shahash (c.chunks r).data (c.chunks r).sha1 = true) :
    chunks2file shahash c =
      c.doneChunks.map fun r ↦ (chunkOffset (c.chunks r).id, (c.chunks r).data) := by
  by_cases hdone : c.doneChunks = []
  · rw [chunks2file, if_pos (.inr hdone), hdone]
    rfl
  · rw [chunks2file, if_neg (by simp [hdown, hdone]), chunks2fileLoop_eq hcheck]

/-- Among chunks with hashes of their own it is enough that receivers do not share chunks. -/
theorem Fetching.exclusive (h : c₀.Fetching c)
    (hdistinct : ((c₀.downChunks ++ c₀.doneChunks).map fun r ↦ (c₀.chunks r).hash).Nodup)
    (e : DownloadEvent) : c.Exclusive e := by
  cases e with
  | lookAt => trivial
  | ihave pkt peer => trivial
  | data pkt peer =>
      intro rcvr hget _
      obtain ⟨p, rfl⟩ := exists_peer_of_getReceiver hget
      have hrcvr := (mem_of_getReceiver hget).1
      refine ⟨h.oneEach.unfinished rcvr hrcvr, fun _ r hfound ↦ .inl ?_⟩
      apply h.consistent.hash_inj hdistinct (List.mem_append_left _ (List.mem_of_find?_eq_some hfound))
        (List.mem_append_left _ (h.queued rcvr hrcvr))
      have hhash := List.find?_some hfound
      exact (eq_of_beq hhash).symm

/-- So a run whose receivers do not share chunks meets the condition. -/
theorem along_exclusive {max : Int} {lines : List (Int × List UInt8)} {es : List DownloadEvent}
    (hdistinct : (lines.map fun l ↦ l.2.take (2 * sha1HashSize)).Nodup)
    (h : Machine.Along (step shahash) AttachesUnshared (start max lines) es) :
    Machine.Along (step shahash) Exclusive (start max lines) es := by
  have hkeys := nodup_hash_start max hdistinct
  exact h.imp (fun _ _ _ hf he hstep ↦ Fetching.step hf hkeys he hstep)
    (fun _ e hf _ ↦ Fetching.exclusive hf hkeys e) (fetching_start max lines)

/-! ## A chunk of zeros -/

/-- Packets from one peer are a run of the download. -/
theorem run_data (c : Client) (p : PeerRef) (pkts : List Packet) :
    Machine.run (step shahash) c (pkts.map fun q ↦ .data q (some p)) =
      Machine.run (deliver shahash p) c pkts := by
  induction pkts generalizing c with
  | nil => rfl
  | cons q pkts ih =>
      rw [List.map_cons, Machine.run_cons, Machine.run_cons]
      exact congrArg _ (funext ih)

/-- They attach no receiver. -/
theorem along_data (c : Client) (p : PeerRef) (pkts : List Packet) :
    Machine.Along (step shahash) AttachesUnshared c (pkts.map fun q ↦ .data q (some p)) := by
  induction pkts generalizing c with
  | nil => trivial
  | cons q pkts ih => exact ⟨trivial, fun t _ ↦ ih t⟩

/-- All packets of a chunk but the last one, delivered to the receiver of `p`, which then
completes the chunk with that one. -/
theorem run_but_last {p : PeerRef} (content : ChunkData) (shahash : List UInt8 → List UInt8)
    (hpool : c.receiverPool.Ok) (hget : getReceiver c.receiverPool (some p) = some (newReceiver p 0)) :
    ∃ c₁ r₁, Machine.run (deliver shahash p) c ((List.range 374).map (dataPacket content)) = some c₁ ∧
      Filling content c p 0 ((List.range 374).map (dataPacket content)) c₁ r₁ ∧
      r₁.rcvr.lastRcvd = 374 ∧
      r₁.processDATA (dataPacket content 374) = some (r₁.next content, [makeACK 375]) := by
  have hmem : ∀ q ∈ (List.range 374).map (dataPacket content), q ∈ (chunk2pkts content).1 := by
    intro q hq
    obtain ⟨i, hi, rfl⟩ := List.mem_map.mp hq
    exact mem_chunk2pkts.mpr ⟨i, Nat.lt_trans (List.mem_range.mp hi) (by decide), rfl⟩
  obtain ⟨c₁, r₁, hrun, hfill⟩ := (filling_of_get content hpool hget).run shahash hmem
  rw [List.nil_append] at hfill
  have hrcvd : r₁.rcvr.lastRcvd = 374 := by
    rw [hfill.rcvd, seqNums_range content (by decide), Counting.count_range]
  obtain ⟨chunk, hproc, hblend⟩ := Receiving.processDATA_expected content hfill.ok
    (show r₁.rcvr.lastRcvd < dataPktNum by rw [hrcvd]; decide)
  rw [hrcvd] at hproc hblend
  have hcontent : chunk = content := by
    have hbuf := hfill.buffer
    rw [← hfill.rcvd, hrcvd] at hbuf
    ext1
    rw [hblend _ (c.chunks 0).data.size_eq hbuf]
    have hsize : btChunkSize ≤ (374 + 1) * dataSize := by decide
    exact Bytes.blend_of_length_le (content.size_eq.trans_le hsize)
      ((c.chunks 0).data.size_eq.trans_le hsize)
  rw [hcontent] at hproc
  exact ⟨c₁, r₁, hrun, hfill, hrcvd, hproc⟩

/-- All packets of a chunk whose hash is right, delivered to the receiver of `p`,
finish it and leave the receivers of other peers where they are. -/
theorem run_all_packets {p : PeerRef} {content : ChunkData} (hpool : c.receiverPool.Ok)
    (hget : getReceiver c.receiverPool (some p) = some (newReceiver p 0))
    (hfound : containsChunk c.chunks c.downChunks (c.chunks 0).hash = some 0)
    (hcheck : checkChunk shahash content (c.chunks 0).sha1 = true) :
    ∃ c', Machine.run (deliver shahash p) c (chunk2pkts content).1 = some c' ∧
      c.DeliveryFrame c' p 0 ∧ (c'.chunks 0).cState = .finished ∧ (c'.chunks 0).data = content := by
  have hsplit : (chunk2pkts content).1 =
      (List.range 374).map (dataPacket content) ++ [dataPacket content 374] := by
    have hrange : List.range dataPktNum = List.range 374 ++ [374] := List.range_succ
    rw [chunk2pkts_eq, hrange, List.map_append, List.map_singleton]
  obtain ⟨c₁, r₁, hrun, hfill₁, hrcvd, hproc⟩ := run_but_last content shahash hpool hget
  obtain ⟨c₂, hlast, hconn, hframe, -, hstore⟩ :=
    hfill₁.conn.processDATA shahash hfill₁.frame.pool hproc
  have hchunk : r₁.rcvr.chunk = 0 := by rw [hfill₁.rcvr]; rfl
  rw [hchunk] at hframe hstore
  refine ⟨c₂, ?_, hfill₁.frame.trans hframe, ?_, ?_⟩
  · rw [hsplit]
    refine Machine.run_trans hrun (Machine.run_single ?_)
    rw [deliver, hlast]
    rfl
  · have hopened : (r₁.next content).opened = false := by
      show decide (r₁.rcvr.lastRcvd + 1 < dataPktNum) = false
      rw [hrcvd]
      rfl
    have hopen₁ : r₁.opened = true := hfill₁.ok.opened_iff.mpr (by rw [hrcvd]; decide)
    rw [hstore hopen₁, storeAfter, hopened, if_neg Bool.false_ne_true]
    show (updateState _ _ _ (if checkChunk shahash content _ = true then _ else _) _).cState = _
    rw [hfill₁.frame.sha1, if_pos hcheck]
    refine cState_updateState_finished ?_
    rw [containsChunk_congr (sha1_setData _ _ _), containsChunk_congr hfill₁.frame.sha1,
      ChunkT.hash, sha1_setData, hfill₁.frame.sha1, hfill₁.frame.down]
    exact hfound
  · have hdata := hconn.data
    rw [show (r₁.next content).rcvr.chunk = 0 from hchunk] at hdata
    exact hdata

/-- A chunk of one byte hashes to twenty of them. -/
theorem firstBytes_fill (b : UInt8) :
    firstBytes (ChunkData.fill b).bytes = List.replicate sha1HashSize b := by
  rw [firstBytes, ChunkData.fill, List.take_replicate]
  rfl

/-- The chunk is announced by one peer and asked for. -/
def askZeros : List DownloadEvent := [.ihave zeroIHAVE (some 0), .lookAt]

/-- All its packets. -/
def sendZeros : List DownloadEvent := (chunk2pkts (.fill 0)).1.map fun q ↦ .data q (some 0)

/-- With the packets of a chunk of zeros it is finished. -/
theorem run_zeros : ∃ c c', Machine.run (step firstBytes) (start 1 zeroLine) askZeros = some c ∧
    Machine.run (step firstBytes) c sendZeros = some c' ∧ c'.downChunks = [0] ∧
    c'.doneChunks = [] ∧ (c'.chunks 0).cState = .finished ∧ (c'.chunks 0).data = .fill 0 ∧
    (c'.chunks 0).id = 0 ∧ checkChunk firstBytes (.fill 0) (c'.chunks 0).sha1 = true := by
  obtain ⟨c, hrun, hdown, hdone, hpool, hget, hfound, hid, hsha1⟩ : ∃ c,
      Machine.run (step firstBytes) (start 1 zeroLine) askZeros = some c ∧ c.downChunks = [0] ∧
        c.doneChunks = [] ∧ c.receiverPool.Ok ∧
        getReceiver c.receiverPool (some 0) = some (newReceiver 0 0) ∧
        containsChunk c.chunks c.downChunks (c.chunks 0).hash = some 0 ∧ (c.chunks 0).id = 0 ∧
        (c.chunks 0).sha1 = sha1Array (List.replicate 40 48) :=
    ⟨_, rfl, rfl, rfl, ⟨rfl, List.nodup_singleton _⟩, rfl, rfl, rfl, rfl⟩
  have hzeros : checkChunk firstBytes (.fill 0) (c.chunks 0).sha1 = true := by
    rw [hsha1, checkChunk, firstBytes_fill]
    decide
  obtain ⟨c', hrun', hframe, hfin, hdata⟩ := run_all_packets hpool hget hfound hzeros
  refine ⟨c, c', hrun, (run_data c 0 _).trans hrun', hframe.down.trans hdown,
    hframe.done.trans hdone, hfin, hdata, (hframe.id 0).trans hid, ?_⟩
  rw [hframe.sha1]
  exact hzeros

/-- With nothing but finished chunks in the queue, `look_at` moves them all. -/
theorem lookAt_of_finished (h : ∀ r ∈ c.downChunks, (c.chunks r).cState = .finished) :
    (∀ down p, ¬ c.Attaches down p) ∧ c.lookAt = (c.scanned, []) ∧ c.scanned.downChunks = [] ∧
      c.scanned.doneChunks = c.doneChunks ++ c.downChunks := by
  have hscan : scanChunkDone c.chunks c.downChunks c.doneChunks =
      ([], c.doneChunks ++ c.downChunks) := by
    rw [scanChunkDone_eq, List.filter_eq_nil_iff.mpr, List.filter_eq_self.mpr]
    · exact fun r hr ↦ decide_eq_true (h r hr)
    · exact fun r hr ↦ by simp [h r hr]
  have hnone : ∀ down p, ¬ c.Attaches down p := fun down p hattaches ↦
    hattaches.mem.2 (h down hattaches.mem.1)
  exact ⟨hnone, lookAt_of_not_attaches hnone, congrArg Prod.fst hscan, congrArg Prod.snd hscan⟩

/-- So it is with a queue of one chunk. -/
theorem lookAt_of_singleton {r : ChunkRef} (hdown : c.downChunks = [r]) (hdone : c.doneChunks = [])
    (hfin : (c.chunks r).cState = .finished) :
    (∀ down p, ¬ c.Attaches down p) ∧ c.lookAt = (c.scanned, []) ∧ c.scanned.downChunks = [] ∧
      c.scanned.doneChunks = [r] := by
  have hall : ∀ r ∈ c.downChunks, (c.chunks r).cState = .finished := by
    rw [hdown]
    exact List.forall_mem_singleton.mpr hfin
  obtain ⟨hnone, hlook, hempty, hmoved⟩ := lookAt_of_finished hall
  rw [hdone, hdown, List.nil_append] at hmoved
  exact ⟨hnone, hlook, hempty, hmoved⟩

/-- The next look at the queue moves it. -/
def fetchZeros : List DownloadEvent := askZeros ++ (sendZeros ++ [.lookAt])

theorem run_fetchZeros : ∃ c,
    Machine.run (step firstBytes) (start 1 zeroLine) fetchZeros = some c ∧
      Machine.Along (step firstBytes) AttachesUnshared (start 1 zeroLine) fetchZeros ∧
      c.downChunks = [] ∧ c.doneChunks = [0] ∧ (c.chunks 0).cState = .finished ∧
      (c.chunks 0).data = .fill 0 := by
  obtain ⟨c, c', hask, hsend, hdown, hdone, hfin, hdata, -⟩ := run_zeros
  obtain ⟨hnone, hlook, hempty, hmoved⟩ := lookAt_of_singleton hdown hdone hfin
  have hstep : c'.step firstBytes .lookAt = some c'.scanned :=
    congrArg some (congrArg Prod.fst hlook)
  refine ⟨c'.scanned, Machine.run_trans hask (Machine.run_trans hsend (Machine.run_single hstep)),
    ?_, hempty, hmoved, hfin, hdata⟩
  rw [fetchZeros, Machine.along_append hask, Machine.along_append hsend]
  refine ⟨⟨trivial, ?_⟩, ?_, fun down p hattaches ↦ absurd hattaches (hnone down p),
    fun _ _ ↦ trivial⟩
  · -- nobody has been asked yet
    rintro t ⟨⟩
    exact ⟨fun _ _ _ r hr ↦ absurd hr List.not_mem_nil, fun _ _ ↦ trivial⟩
  · exact along_data c 0 _

/-! ## Any run -/

/-- In a run whose every accepted DATA packet meets the condition, every finished
chunk has the hash that was asked for, and once the download queue is empty
`chunks2file` writes every requested chunk. -/
theorem finished_chunks_right {max : Int} {lines : List (Int × List UInt8)}
    {es : List DownloadEvent} (hrun : Machine.run (step shahash) (start max lines) es = some c)
    (hok : Machine.Along (step shahash) Exclusive (start max lines) es) :
    (∀ r, (c.chunks r).cState = .finished →
      checkChunk shahash (c.chunks r).data ((start max lines).chunks r).sha1 = true) ∧
    (c.downChunks = [] → (chunks2file shahash c).Perm ((List.range lines.length).map fun r ↦
      (chunkOffset ((start max lines).chunks r).id, (c.chunks r).data))) := by
  have hinv : (start max lines).Consistent c ∧ c.Checked shahash := by
    refine Machine.invariant_along
      (P := fun c ↦ (start max lines).Consistent c ∧ c.Checked shahash) ?_ hok hrun
      ⟨consistent_start max lines, ?_⟩
    · rintro c e c' ⟨hc, hchecked⟩ he hstep
      exact ⟨hc.step hstep, checked_step hc hchecked he hstep⟩
    · intro r hfin
      obtain ⟨id, sha1, hready⟩ := exists_chunks_start max lines r
      rw [hready] at hfin
      cases hfin
  obtain ⟨hc, hchecked⟩ := hinv
  refine ⟨?_, ?_⟩
  · intro r hfin
    rw [← hc.sha1 r]
    exact hchecked r hfin
  · intro hempty
    have hperm : c.doneChunks.Perm (List.range lines.length) := by
      have hq := hc.queues
      rw [hempty, List.nil_append] at hq
      exact hq.trans (by rw [start, List.append_nil])
    rw [chunks2file_eq hempty fun r hr ↦ hchecked r (hc.done r hr)]
    simp only [hc.id]
    exact hperm.map _

/-- The chunk of zeros is finished, has the right hash and is written. -/
theorem finished_chunks_right_zeros : ∃ c,
    Machine.run (step firstBytes) (start 1 zeroLine) fetchZeros = some c ∧
    (c.chunks 0).cState = .finished ∧
    checkChunk firstBytes (c.chunks 0).data ((start 1 zeroLine).chunks 0).sha1 = true ∧
    chunks2file firstBytes c = [(0, .fill 0)] := by
  obtain ⟨c, hrun, halong, hdown, -, hfin, hdata⟩ := run_fetchZeros
  obtain ⟨hright, hwritten⟩ :=
    finished_chunks_right hrun (along_exclusive (List.nodup_singleton _) halong)
  have hperm := hwritten hdown
  rw [show (List.range zeroLine.length).map (fun r ↦
    (chunkOffset ((start 1 zeroLine).chunks r).id, (c.chunks r).data)) = [(0, (c.chunks 0).data)]
      from rfl, hdata] at hperm
  exact ⟨c, hrun, hfin, hright 0 hfin, List.perm_singleton.mp hperm⟩

/-- The first holder completes the chunk, then the second one's first packet of
ones arrives. -/
def overwrite : List DownloadEvent :=
  attach ++ ((chunk2pkts (.fill 0)).1.map (fun q ↦ .data q (some 0)) ++
    [.data (dataPacket (.fill 1) 0) (some 1)])

/-- After that run the chunk is finished and its hash is wrong. -/
theorem finished_chunk_wrong :
    ¬ ∀ c, Machine.run (step firstBytes) (start 2 zeroLine) overwrite = some c →
      ∀ r, (c.chunks r).cState = .finished →
        checkChunk firstBytes (c.chunks r).data ((start 2 zeroLine).chunks r).sha1 = true := by
  intro h
  obtain ⟨c, hrun, hdown, hworkers, hcount, hsha1, hdata⟩ := run_attach
  obtain ⟨hpool, hget⟩ := receivers_attach hworkers hcount
  have hfound : containsChunk c.chunks c.downChunks (c.chunks 0).hash = some 0 := by
    rw [hdown, containsChunk, List.find?_cons_of_pos (by simp)]
  have hzeros : checkChunk firstBytes (.fill 0) (c.chunks 0).sha1 = true := by
    rw [hsha1, checkChunk, firstBytes_fill]
    decide
  obtain ⟨c₁, hrun₁, hframe, hfin, -⟩ := run_all_packets hpool (hget 0 (by decide)) hfound hzeros
  -- the receiver of the other holder still writes into the buffer
  have hget₁ : getReceiver c₁.receiverPool (some 1) = some (newReceiver 1 0) :=
    (hframe.others 1 (by decide)).trans (hget 1 (by decide))
  obtain ⟨chunk, hproc, hbytes⟩ := Receiving.processDATA_first (.fill 1) 1 0 (c₁.chunks 0).data
  obtain ⟨c₂, hlast, -, hframe₂, -, hstore⟩ :=
    (connection_of_get hget₁).processDATA firstBytes hframe.pool hproc
  have hones : firstBytes chunk.bytes = List.replicate 20 1 := by
    rw [firstBytes, hbytes]
    rw [Bytes.take_blend_of_le (by decide) (by rw [ChunkData.size_eq]; decide), ChunkData.fill,
      List.take_replicate]
    rfl
  have hchunks : c₂.chunks = (c₁.setData 0 chunk).chunks := hstore rfl
  have hrun₂ : Machine.run (step firstBytes) (start 2 zeroLine) overwrite = some c₂ := by
    refine Machine.run_trans hrun (Machine.run_trans ((run_data c 0 _).trans hrun₁)
      (Machine.run_single ?_))
    exact congrArg (Option.map Prod.fst) hlast
  have hcheck := h c₂ hrun₂ 0 (by rw [hchunks, cState_setData]; exact hfin)
  rw [hchunks, data_setData, if_pos rfl, checkChunk, hones] at hcheck
  revert hcheck
  decide

end Client

end BitTorrent
