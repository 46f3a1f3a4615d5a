import BitTorrent.Download.System

/-!
# Receivers that share a chunk

`choose_chunk_to_download` looks at the number of holders only, so `look_at` may
attach a second receiver to a chunk that is being downloaded from another holder.
That is the one way two entries of `receiver_pool` come to fetch the same chunk, or
one of them a finished chunk: a run keeps clear of both exactly if no `look_at` of
it does that.
-/

namespace BitTorrent

namespace Client

variable {shahash : List UInt8 → List UInt8} {c₀ c c' : Client} {max : Int}
  {lines : List (Int × List UInt8)}

/-- No two entries of the pool fetch the same chunk, and none fetches a finished one. -/
structure OneEach (c : Client) : Prop where
  distinct : (c.receiverPool.workers.map Receiver.chunk).Nodup
  unfinished : ∀ r ∈ c.receiverPool.workers, (c.chunks r.chunk).cState ≠ .finished

/-- A `look_at` that attaches a receiver finds none on the chunk. -/
def AttachesUnshared (c : Client) : DownloadEvent → Prop
  | .lookAt => ∀ down p, c.Attaches down p → ∀ r ∈ c.receiverPool.workers, r.chunk ≠ down
  | _ => True

/-- The chunks that are fetched are distinct and among those still to be downloaded. -/
structure Fetching (c₀ c : Client) : Prop where
  consistent : c₀.Consistent c
  oneEach : c.OneEach
  queued : ∀ r ∈ c.receiverPool.workers, r.chunk ∈ c.downChunks

/-- A worker is what `get_receiver` finds for its peer. -/
theorem mem_workers_iff (h : c.receiverPool.Ok) {r : Receiver} :
    r ∈ c.receiverPool.workers ↔ getReceiver c.receiverPool (some r.pSender) = some r := by
  rw [getReceiver_eq_find, Keyed.find_eq_some_iff h.distinct]
  exact ⟨fun hr ↦ ⟨hr, rfl⟩, And.left⟩

/-- The chooser picks a record of the queue. -/
theorem chooseChunkToDownload_mem (store : ChunkStore) (first : ChunkRef) (queue : List ChunkRef) :
    chooseChunkToDownload store first queue ∈ first :: queue := by
  rw [chooseChunkToDownload]
  induction queue generalizing first with
  | nil => exact List.mem_singleton_self first
  | cons r queue ih =>
      rw [List.foldl_cons]
      have hmem := ih (if (store r).holders.length < (store first).holders.length ∧
        (store r).holders ≠ [] then r else first)
      rcases List.mem_cons.mp hmem with heq | hmem
      · rw [heq]
        split
        · exact List.mem_cons_of_mem _ (List.mem_cons_self ..)
        · exact List.mem_cons_self ..
      · exact List.mem_cons_of_mem _ (List.mem_cons_of_mem _ hmem)

/-- The unfinished chunks of the queue, as `scan_chunk_done` leaves them. -/
theorem mem_downChunks_scanned {r : ChunkRef} :
    r ∈ c.scanned.downChunks ↔ r ∈ c.downChunks ∧ (c.chunks r).cState ≠ .finished := by
  show r ∈ (scanChunkDone c.chunks c.downChunks c.doneChunks).1 ↔ _
  rw [scanChunkDone_eq, List.mem_filter]
  simp

/-- A receiver is attached to an unfinished chunk of the queue. -/
theorem Attaches.mem {down : ChunkRef} {p : PeerRef} (h : c.Attaches down p) :
    down ∈ c.downChunks ∧ (c.chunks down).cState ≠ .finished := by
  obtain ⟨first, rest, hqueue, rfl⟩ := h.chosen
  rw [← mem_downChunks_scanned, hqueue]
  have hmem := chooseChunkToDownload_mem c.chunks first (first :: rest)
  rcases List.mem_cons.mp hmem with heq | hmem
  · rw [heq]
    exact List.mem_cons_self ..
  · exact hmem

/-- What it attaches joins the receivers of the pool. -/
theorem Attaches.lookAt_workers {down : ChunkRef} {p : PeerRef} (h : c.Attaches down p)
    (hpool : c.receiverPool.Ok) : ∃ pool', c.lookAt.1 = c.scanned.attached down pool' ∧
      pool'.workers = c.receiverPool.workers ++ [newReceiver p down] ∧
      ∀ r ∈ pool'.workers, r ∈ c.receiverPool.workers ∨ r = newReceiver p down := by
  obtain ⟨pool', hadd, heq⟩ := h.lookAt_eq
  obtain ⟨-, hworkers⟩ := hpool.counts.add hadd
  refine ⟨pool', congrArg Prod.fst heq, hworkers, ?_⟩
  intro r hr
  rw [hworkers] at hr
  simpa using hr

/-- The mark `DOWNLOADING` finishes nothing. -/
theorem cState_attached_ne {down r : ChunkRef} {pool : ReceiverPool}
    (h : (c.chunks r).cState ≠ .finished) :
    ((c.scanned.attached down pool).chunks r).cState ≠ .finished := by
  show (updateState c.chunks c.scanned.downChunks down .downloading r).cState ≠ _
  rcases updateState_cases c.chunks c.scanned.downChunks down .downloading with heq | ⟨r', -, -, heq⟩
  · rw [heq]
    exact h
  · rw [heq]
    by_cases hr : r = r'
    · subst hr
      rw [Function.update_self]
      exact ChunkState.noConfusion
    · rw [Function.update_of_ne hr]
      exact h

/-- A `look_at` that meets the condition. -/
theorem Fetching.lookAt (h : c₀.Fetching c) (hok : c.AttachesUnshared .lookAt) :
    c₀.Fetching c.lookAt.1 := by
  have hstep : c.step id .lookAt = some c.lookAt.1 := rfl
  have hconsistent : c₀.Consistent c.lookAt.1 := h.consistent.step hstep
  have hqueued : ∀ r ∈ c.receiverPool.workers, r.chunk ∈ c.scanned.downChunks := fun r hr ↦
    mem_downChunks_scanned.mpr ⟨h.queued r hr, h.oneEach.unfinished r hr⟩
  by_cases hattaches : ∃ down p, c.Attaches down p
  · obtain ⟨down, p, hattaches⟩ := hattaches
    obtain ⟨pool', heq, hworkers, hmem⟩ := hattaches.lookAt_workers h.consistent.pool
    obtain ⟨hdown, hopen⟩ := hattaches.mem
    rw [heq] at hconsistent ⊢
    refine ⟨hconsistent, ⟨?_, ?_⟩, ?_⟩
    · show (pool'.workers.map Receiver.chunk).Nodup
      rw [hworkers, List.map_append, List.map_singleton, List.nodup_append]
      refine ⟨h.oneEach.distinct, List.nodup_singleton _, ?_⟩
      rintro a ha b hb rfl
      obtain ⟨r, hr, hchunk⟩ := List.mem_map.mp ha
      exact hok down p hattaches r hr (hchunk.trans (List.mem_singleton.mp hb))
    · intro r hr
      rcases hmem r hr with hr | rfl
      · exact cState_attached_ne (h.oneEach.unfinished r hr)
      · exact cState_attached_ne hopen
    · intro r hr
      rcases hmem r hr with hr | rfl
      · exact hqueued r hr
      · exact mem_downChunks_scanned.mpr ⟨hdown, hopen⟩
  · have heq := lookAt_of_not_attaches fun down p hc ↦ hattaches ⟨down, p, hc⟩
    rw [heq] at hconsistent ⊢
    exact ⟨hconsistent, ⟨h.oneEach.distinct, h.oneEach.unfinished⟩, hqueued⟩

/-- An IHAVE packet changes neither states nor receivers. -/
theorem Fetching.ihave (h : c₀.Fetching c) {pkt : Packet} {peer : Option PeerRef}
    (hstep : c.step shahash (.ihave pkt peer) = some c') : c₀.Fetching c' := by
  obtain ⟨hsame, hdown, -, hpool⟩ := processIHAVE_frame hstep
  refine ⟨h.consistent.step hstep, ⟨?_, ?_⟩, ?_⟩
  · rw [hpool]
    exact h.oneEach.distinct
  · intro r hr
    rw [hpool] at hr
    rw [hsame.cState]
    exact h.oneEach.unfinished r hr
  · intro r hr
    rw [hpool] at hr
    rw [hdown]
    exact h.queued r hr

/-- The chunks of a download are told apart by their hashes. -/
theorem Consistent.hash_inj (h : c₀.Consistent c)
    (hdistinct : ((c₀.downChunks ++ c₀.doneChunks).map fun r ↦ (c₀.chunks r).hash).Nodup)
    {r r' : ChunkRef} (hr : r ∈ c.downChunks ++ c.doneChunks)
    (hr' : r' ∈ c.downChunks ++ c.doneChunks)
    (heq : (c.chunks r).hash = (c.chunks r').hash) : r = r' := by
  apply List.inj_on_of_nodup_map hdistinct (h.queues.mem_iff.mp hr) (h.queues.mem_iff.mp hr')
  simpa only [ChunkT.hash, h.sha1] using heq

/-- A worker after a delivery is one from before, or the one that took the packet. -/
theorem DeliveryFrame.workers_cases {p : PeerRef} {chunk : ChunkRef} {r' : Receiving}
    (h : c.DeliveryFrame c' p chunk) (hpool : c.receiverPool.Ok) (hconn : c'.Connection p r')
    {r : Receiver} (hr : r ∈ c'.receiverPool.workers) :
    (r ∈ c.receiverPool.workers ∧ r.pSender ≠ p) ∨ (r = r'.rcvr ∧ r'.opened = true) := by
  rw [mem_workers_iff h.pool] at hr
  by_cases hp : p = r.pSender
  · rw [← hp, hconn.get] at hr
    split at hr
    · next hopen => exact .inr ⟨(Option.some.inj hr).symm, hopen⟩
    · cases hr
  · rw [h.others _ hp] at hr
    exact .inl ⟨(mem_workers_iff hpool).mpr hr, Ne.symm hp⟩

/-- A delivery finishes the chunk of the receiver it removes only. -/
theorem Fetching.data (h : c₀.Fetching c)
    (hdistinct : ((c₀.downChunks ++ c₀.doneChunks).map fun r ↦ (c₀.chunks r).hash).Nodup)
    {pkt : Packet} {peer : Option PeerRef}
    (hstep : c.step shahash (.data pkt peer) = some c') : c₀.Fetching c' := by
  have hconsistent := h.consistent.step hstep
  obtain ⟨⟨c'', acks⟩, hproc, rfl⟩ := Option.map_eq_some_iff.mp hstep
  rcases processDATA_cases h.consistent.pool hproc with rfl | ⟨p, rcvr, r', rfl, hget, hstore, -,
    hconn, hframe, hchunks⟩
  · exact h
  have hchunk : r'.rcvr.chunk = rcvr.chunk := (Receiver.store_frame hstore).2
  have hrcvr := mem_of_getReceiver hget
  have hcases := fun r hr ↦ hframe.workers_cases h.consistent.pool hconn (r := r) hr
  have hother : ∀ r ∈ c.receiverPool.workers, r.pSender ≠ p → r.chunk ≠ rcvr.chunk := by
    intro r hr hne hsame
    have := List.inj_on_of_nodup_map h.oneEach.distinct hr hrcvr.1 hsame
    rw [this] at hne
    exact hne hrcvr.2
  refine ⟨hconsistent, ⟨?_, ?_⟩, ?_⟩
  · refine List.Nodup.map_on ?_ (List.Nodup.of_map _ hframe.pool.distinct)
    intro r hr r₁ hr₁ hsame
    rcases hcases r hr with ⟨hmem, hne⟩ | ⟨rfl, -⟩
    · rcases hcases r₁ hr₁ with ⟨hmem₁, -⟩ | ⟨rfl, -⟩
      · exact List.inj_on_of_nodup_map h.oneEach.distinct hmem hmem₁ hsame
      · exact absurd (hsame.trans hchunk) (hother r hmem hne)
    · rcases hcases r₁ hr₁ with ⟨hmem₁, hne₁⟩ | ⟨rfl, -⟩
      · exact absurd (hsame.symm.trans hchunk) (hother r₁ hmem₁ hne₁)
      · rfl
  · intro r hr
    rcases hcases r hr with ⟨hmem, hne⟩ | ⟨rfl, hopen⟩
    · rw [hframe.cState]
      · exact h.oneEach.unfinished r hmem
      · intro hhash
        exact hother r hmem hne (h.consistent.hash_inj hdistinct
          (List.mem_append_left _ (h.queued r hmem))
          (List.mem_append_left _ (h.queued rcvr hrcvr.1)) hhash)
    · rw [hchunks, storeAfter, if_pos hopen, cState_setData, hchunk]
      exact h.oneEach.unfinished rcvr hrcvr.1
  · intro r hr
    rw [hframe.down]
    rcases hcases r hr with ⟨hmem, -⟩ | ⟨rfl, -⟩
    · exact h.queued r hmem
    · rw [hchunk]
      exact h.queued rcvr hrcvr.1

theorem Fetching.step (h : c₀.Fetching c)
    (hdistinct : ((c₀.downChunks ++ c₀.doneChunks).map fun r ↦ (c₀.chunks r).hash).Nodup)
    {e : DownloadEvent} (he : c.AttachesUnshared e) (hstep : c.step shahash e = some c') :
    c₀.Fetching c' := by
  cases e with
  | lookAt =>
      cases hstep
      exact h.lookAt he
  | ihave pkt peer => exact h.ihave hstep
  | data pkt peer => exact h.data hdistinct hstep

/-- A `look_at` that attaches a second receiver to a chunk leaves two entries for it. -/
theorem attachesUnshared_of_oneEach (hpool : c.receiverPool.Ok) {e : DownloadEvent}
    (hstep : c.step shahash e = some c') (h : c'.OneEach) : c.AttachesUnshared e := by
  cases e with
  | lookAt =>
      cases hstep
      rintro down p hattaches r hr rfl
      obtain ⟨pool', heq, hworkers, -⟩ := hattaches.lookAt_workers hpool
      have hdistinct : (pool'.workers.map Receiver.chunk).Nodup := by
        have := h.distinct
        rw [heq] at this
        exact this
      rw [hworkers, List.map_append, List.map_singleton] at hdistinct
      exact (List.nodup_append.mp hdistinct).2.2 _ (List.mem_map_of_mem hr) _
        (List.mem_singleton_self _) rfl
  | ihave pkt peer => trivial
  | data pkt peer => trivial

theorem fetching_start (max : Int) (lines : List (Int × List UInt8)) :
    (start max lines).Fetching (start max lines) where
  consistent := consistent_start max lines
  oneEach := ⟨List.nodup_nil, fun _ hr ↦ absurd hr List.not_mem_nil⟩
  queued _ hr := absurd hr List.not_mem_nil

/-- The records of a chunk file with distinct hashes. -/
theorem nodup_hash_start (max : Int) (h : (lines.map fun l ↦ l.2.take (2 * sha1HashSize)).Nodup) :
    (((start max lines).downChunks ++ (start max lines).doneChunks).map
      fun r ↦ ((start max lines).chunks r).hash).Nodup := by
  have heq : ((start max lines).downChunks ++ (start max lines).doneChunks).map
      (fun r ↦ ((start max lines).chunks r).hash) =
        lines.map fun l ↦ l.2.take (2 * sha1HashSize) := by
    rw [show (start max lines).downChunks ++ (start max lines).doneChunks = List.range lines.length
      from List.append_nil _]
    apply List.ext_getElem
    · rw [List.length_map, List.length_range, List.length_map]
    · intro i _ hi
      have hi' : i < lines.length := by
        rw [List.length_map] at hi
        exact hi
      rw [List.getElem_map, List.getElem_map, List.getElem_range, chunks_start max hi']
      rfl
  rw [heq]
  exact h

/-! ## Two holders -/

/-- A hash function that keeps the first twenty bytes. -/
def firstBytes (bytes : List UInt8) : List UInt8 := bytes.take sha1HashSize

/-- A chunk file with one line: a chunk that starts with twenty zeros. -/
def zeroLine : List (Int × List UInt8) := [(0, sha1Array (List.replicate 40 48))]

/-- The IHAVE packet for that chunk. -/
def zeroIHAVE : Packet :=
  makePKT .ihave 0 24 (hashList 1 [initChunk 0 (sha1Array (List.replicate 40 48))])

/-- Two holders, and a receiver attached to each. -/
def attach : List DownloadEvent :=
  [.ihave zeroIHAVE (some 0), .ihave zeroIHAVE (some 1), .lookAt, .lookAt]

/-- `choose_chunk_to_download` picks a chunk that is being downloaded, so both
receivers fetch the same chunk. -/
theorem run_attach : ∃ c, Machine.run (step firstBytes) (start 2 zeroLine) attach = some c ∧
    c.downChunks = [0] ∧ c.receiverPool.workers = [newReceiver 0 0, newReceiver 1 0] ∧
    c.receiverPool.curNum = 2 ∧ (c.chunks 0).sha1 = sha1Array (List.replicate 40 48) ∧
    (c.chunks 0).data = .fill 0 := by
  refine ⟨_, rfl, rfl, rfl, rfl, rfl, rfl⟩

/-- Both holders have a receiver there. -/
theorem receivers_attach (hworkers : c.receiverPool.workers = [newReceiver 0 0, newReceiver 1 0])
    (hcount : c.receiverPool.curNum = 2) :
    c.receiverPool.Ok ∧ ∀ p < 2, getReceiver c.receiverPool (some p) = some (newReceiver p 0) := by
  refine ⟨⟨?_, ?_⟩, ?_⟩
  · rw [Pool.Counts, hcount, hworkers]
    rfl
  · rw [hworkers]
    decide
  · intro p hp
    rw [getReceiver_eq_find, hworkers]
    revert p
    decide

/-! ## Any run -/

/-- For a chunk file with distinct hashes: in every state a run passes through no two
entries of `receiver_pool` fetch the same chunk and none fetches a finished one,
exactly if no `look_at` of the run attaches a receiver to a chunk that has one. -/
theorem receivers_unshared_iff {es : List DownloadEvent}
    (hdistinct : (lines.map fun l ↦ l.2.take (2 * sha1HashSize)).Nodup)
    (hrun : Machine.run (step shahash) (start max lines) es = some c) :
    (∀ fs, fs <+: es → ∀ t, Machine.run (step shahash) (start max lines) fs = some t → t.OneEach) ↔
      Machine.Along (step shahash) AttachesUnshared (start max lines) es := by
  refine Machine.along_iff_good (I := (start max lines).Fetching) (fun _ h ↦ h.oneEach) ?_ ?_ hrun
    (fetching_start max lines)
  · exact fun _ _ _ h hstep he ↦ h.step (nodup_hash_start max hdistinct) he hstep
  · exact fun _ _ _ h hstep hgood ↦ attachesUnshared_of_oneEach h.consistent.pool hstep hgood

/-- One chunk, announced by one peer, and a look at it. -/
theorem receivers_unshared_iff_one : ∃ c,
    Machine.run (step firstBytes) (start 2 zeroLine) [.ihave zeroIHAVE (some 0), .lookAt] = some c ∧
    ((∀ fs, fs <+: [.ihave zeroIHAVE (some 0), .lookAt] → ∀ t,
        Machine.run (step firstBytes) (start 2 zeroLine) fs = some t → t.OneEach) ↔
      Machine.Along (step firstBytes) AttachesUnshared (start 2 zeroLine)
        [.ihave zeroIHAVE (some 0), .lookAt]) := by
  have hrun : Machine.run (step firstBytes) (start 2 zeroLine)
      [.ihave zeroIHAVE (some 0), .lookAt] = some _ := rfl
  exact ⟨_, hrun, receivers_unshared_iff (List.nodup_singleton _) hrun⟩

/-- With two holders the second `look_at` attaches a second receiver to the chunk. -/
theorem receivers_shared :
    ¬ ∀ c, Machine.run (step firstBytes) (start 2 zeroLine) attach = some c → c.OneEach := by
  intro h
  obtain ⟨c, hrun, -, hworkers, -⟩ := run_attach
  have hdistinct := (h c hrun).distinct
  rw [hworkers] at hdistinct
  revert hdistinct
  decide

end Client

end BitTorrent
