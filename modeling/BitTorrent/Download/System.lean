import BitTorrent.Library.Run
import BitTorrent.Download.Delivery

/-!
# One download

A downloading peer from the start of `process_download`: its records come from
the chunk file, its queue of finished chunks and its pool are empty.  From then
on it calls `look_at` now and then and receives IHAVE and DATA packets from any
peer, with any content.
-/

namespace BitTorrent

/-- What can happen to a downloading peer. -/
inductive DownloadEvent where
  | lookAt
  | ihave (pkt : Packet) (peer : Option PeerRef)
  | data (pkt : Packet) (peer : Option PeerRef)

namespace Client

/-- The peer after `process_download`: one record for each line of the chunk file,
an empty pool of at most `max` receivers. -/
def start (max : Int) (lines : List (Int × List UInt8)) : Client where
  chunks := fun r ↦
    match lines[r]? with
    | some (id, sha1) => initChunk id sha1
    | none => initChunk 0 []
  downChunks := List.range lines.length
  doneChunks := []
  receiverPool := .init max

/-- Every record is a new one. -/
theorem exists_chunks_start (max : Int) (lines : List (Int × List UInt8)) (r : ChunkRef) :
    ∃ id sha1, (start max lines).chunks r = initChunk id sha1 := by
  simp only [start]
  split
  · exact ⟨_, _, rfl⟩
  · exact ⟨_, _, rfl⟩

/-- No chunk has a holder yet. -/
theorem holders_start (max : Int) (lines : List (Int × List UInt8)) (r : ChunkRef) :
    ((start max lines).chunks r).holders = [] := by
  obtain ⟨id, sha1, hnew⟩ := exists_chunks_start max lines r
  rw [hnew]
  rfl

/-- The record of a line. -/
theorem chunks_start (max : Int) {lines : List (Int × List UInt8)} {r : ChunkRef}
    (h : r < lines.length) : (start max lines).chunks r = initChunk lines[r].1 lines[r].2 := by
  simp [start, h]

/-- The steps of a download. -/
def step (shahash : List UInt8 → List UInt8) (c : Client) : DownloadEvent → Option Client
  | .lookAt => some c.lookAt.1
  | .ihave pkt peer => c.processIHAVE pkt peer
  | .data pkt peer => (c.processDATA shahash pkt peer).map Prod.fst

/-! ## Queues -/

section Scan

variable (store : ChunkStore)

/-- The loop of `scan_chunk_done` on a queue whose last part it has been through. -/
theorem scanChunkDoneLoop_append (down kept done : List ChunkRef) :
    scanChunkDoneLoop store down.length (down ++ kept) done =
      (kept ++ down.filter fun r ↦ !decide ((store r).cState = .finished),
        done ++ down.filter fun r ↦ decide ((store r).cState = .finished)) := by
  induction down generalizing kept done with
  | nil => simp [scanChunkDoneLoop]
  | cons r down ih =>
      rw [List.length_cons, List.cons_append, scanChunkDoneLoop]
      by_cases hr : (store r).cState = .finished
      · rw [if_pos hr, ih, List.filter_cons_of_neg (by simp [hr]),
          List.filter_cons_of_pos (by simp [hr]), List.append_assoc, List.singleton_append]
      · rw [if_neg hr, List.append_assoc, ih, List.filter_cons_of_pos (by simp [hr]),
          List.filter_cons_of_neg (by simp [hr]), List.append_assoc, List.singleton_append]

/-- `scan_chunk_done` moves the finished chunks, in their order. -/
theorem scanChunkDone_eq (down done : List ChunkRef) :
    scanChunkDone store down done =
      (down.filter fun r ↦ !decide ((store r).cState = .finished),
        done ++ down.filter fun r ↦ decide ((store r).cState = .finished)) := by
  have h := scanChunkDoneLoop_append store down [] done
  rw [List.append_nil, List.nil_append] at h
  exact h

/-- No chunk is lost between the two queues. -/
theorem scanChunkDone_perm (down done : List ChunkRef) :
    ((scanChunkDone store down done).1 ++ (scanChunkDone store down done).2).Perm (down ++ done) := by
  rw [scanChunkDone_eq]
  have hsplit := List.filter_append_perm (fun r ↦ !decide ((store r).cState = .finished)) down
  simp only [Bool.not_not] at hsplit
  refine (List.Perm.append_left _ List.perm_append_comm).trans ?_
  rw [← List.append_assoc]
  exact hsplit.append_right done

end Scan

/-! ## What each event does -/

variable {shahash : List UInt8 → List UInt8} {c c' : Client}

/-- The peer after `scan_chunk_done`. -/
def scanned (c : Client) : Client :=
  { c with
    downChunks := (scanChunkDone c.chunks c.downChunks c.doneChunks).1
    doneChunks := (scanChunkDone c.chunks c.downChunks c.doneChunks).2 }

/-- The GET packet for a chunk. -/
def getPKT (c : Client) (down : ChunkRef) : Packet :=
  makeGET ((hex2binary (c.chunks down).sha1 trackerLineLen).take sha1HashSize)

/-- The peer after `look_at` has attached a receiver to a chunk. -/
def attached (c : Client) (down : ChunkRef) (pool : ReceiverPool) : Client :=
  { c with
    chunks := updateState c.chunks c.downChunks down .downloading
    receiverPool := pool }

/-- `look_at` scans the queue, and with room in the pool chooses a chunk. -/
theorem lookAt_eq (c : Client) :
    c.lookAt = if c.receiverPool.maxNum ≤ c.receiverPool.curNum then (c.scanned, [])
      else
        match c.scanned.downChunks with
        | [] => (c.scanned, [])
        | first :: rest =>
            c.scanned.lookAtChunk (chooseChunkToDownload c.chunks first (first :: rest)) := rfl

/-- The chunk is fetched from a holder without a receiver. -/
theorem lookAtChunk_of_free {down : ChunkRef} {p : PeerRef} {pool : ReceiverPool}
    (hpick : pickHolder c.receiverPool none (c.chunks down).holders = some p)
    (hfree : getReceiver c.receiverPool (some p) = none)
    (hadd : addReceiver c.receiverPool p down = some pool) :
    c.lookAtChunk down = (c.attached down pool, [(p, c.getPKT down)]) := by
  simp only [lookAtChunk, hpick, hfree, hadd]
  rfl

/-- `look_at` attaches a receiver for `p` to the chunk `down`: there is room in the pool,
the chooser picks that chunk among the unfinished ones, and `p` is the first of its
holders without a receiver. -/
structure Attaches (c : Client) (down : ChunkRef) (p : PeerRef) : Prop where
  room : c.receiverPool.curNum < c.receiverPool.maxNum
  chosen : ∃ first rest, c.scanned.downChunks = first :: rest ∧
    chooseChunkToDownload c.chunks first (first :: rest) = down
  holder : pickHolder c.receiverPool none (c.chunks down).holders = some p
  free : getReceiver c.receiverPool (some p) = none

/-- Then it asks that peer for the chunk. -/
theorem Attaches.lookAt_eq {down : ChunkRef} {p : PeerRef} (h : c.Attaches down p) :
    ∃ pool', addReceiver c.receiverPool p down = some pool' ∧
      c.lookAt = (c.scanned.attached down pool', [(p, c.scanned.getPKT down)]) := by
  obtain ⟨first, rest, hqueue, rfl⟩ := h.chosen
  have hadd : addReceiver c.receiverPool p (chooseChunkToDownload c.chunks first (first :: rest)) =
      some _ := if_neg (Int.not_le.mpr h.room)
  refine ⟨_, hadd, ?_⟩
  rw [Client.lookAt_eq, if_neg (Int.not_le.mpr h.room), hqueue]
  exact lookAtChunk_of_free h.holder h.free hadd

/-- Otherwise it only scans the queue. -/
theorem lookAt_of_not_attaches (h : ∀ down p, ¬ c.Attaches down p) : c.lookAt = (c.scanned, []) := by
  rw [lookAt_eq]
  split
  · rfl
  · next hroom =>
      split
      · rfl
      · next first rest hqueue =>
          let down := chooseChunkToDownload c.chunks first (first :: rest)
          show c.scanned.lookAtChunk down = _
          cases hpick : pickHolder c.receiverPool none (c.chunks down).holders with
          | none =>
              have hpick' : pickHolder c.scanned.receiverPool none (c.scanned.chunks down).holders =
                  none := hpick
              simp only [lookAtChunk, hpick', getReceiver_none]
          | some p =>
              have hpick' : pickHolder c.scanned.receiverPool none (c.scanned.chunks down).holders =
                  some p := hpick
              cases hget : getReceiver c.scanned.receiverPool (some p) with
              | some rcvr => simp only [lookAtChunk, hpick', hget]
              | none =>
                  exact absurd ⟨Int.lt_of_not_ge hroom, ⟨first, rest, hqueue, rfl⟩, hpick, hget⟩
                    (h down p)

/-- `look_at` scans the queue and then attaches at most one receiver, for a peer that
has none, which it asks for the chunk. -/
theorem lookAt_cases (c : Client) :
    c.lookAt = (c.scanned, []) ∨
    ∃ down p pool', getReceiver c.scanned.receiverPool (some p) = none ∧
      addReceiver c.scanned.receiverPool p down = some pool' ∧
      c.lookAt = (c.scanned.attached down pool', [(p, c.scanned.getPKT down)]) := by
  by_cases h : ∃ down p, c.Attaches down p
  · obtain ⟨down, p, hattaches⟩ := h
    obtain ⟨pool', hadd, heq⟩ := hattaches.lookAt_eq
    exact .inr ⟨down, p, pool', hattaches.free, hadd, heq⟩
  · exact .inl (lookAt_of_not_attaches fun down p hattaches ↦ h ⟨down, p, hattaches⟩)

/-- The receivers after `look_at`, and the GET that goes with a new one. -/
theorem receivers_lookAt (hpool : c.receiverPool.Ok) :
    (c.lookAt.2 = [] ∧ c.lookAt.1.receiverPool = c.receiverPool) ∨
    ∃ p down, c.lookAt.2 = [(p, c.getPKT down)] ∧ ∀ q,
      getReceiver c.lookAt.1.receiverPool (some q) =
        if p = q then some (newReceiver p down) else getReceiver c.receiverPool (some q) := by
  rcases lookAt_cases c with heq | ⟨down, p, pool, hfree, hadd, heq⟩
  · rw [heq]
    exact .inl ⟨rfl, rfl⟩
  · rw [heq]
    exact .inr ⟨p, down, rfl, fun q ↦ getReceiver_addReceiver hfree hadd hpool.counts⟩

theorem ok_lookAt (hpool : c.receiverPool.Ok) : c.lookAt.1.receiverPool.Ok := by
  rcases lookAt_cases c with heq | ⟨down, p, pool, hfree, hadd, heq⟩
  · rw [heq]
    exact hpool
  · rw [heq]
    exact hpool.add hfree hadd

theorem maxNum_lookAt (c : Client) : c.lookAt.1.receiverPool.maxNum = c.receiverPool.maxNum := by
  rcases lookAt_cases c with heq | ⟨down, p, pool, -, hadd, heq⟩
  · rw [heq]
    rfl
  · obtain ⟨-, hpool⟩ := Option.ite_none_left_eq_some.mp hadd
    rw [heq]
    cases hpool
    rfl

theorem holders_lookAt (c : Client) (ref : ChunkRef) :
    (c.lookAt.1.chunks ref).holders = (c.chunks ref).holders := by
  rcases lookAt_cases c with heq | ⟨down, p, pool, -, -, heq⟩
  · rw [heq]
    rfl
  · rw [heq]
    exact holders_updateState ..

/-- Two states of the records that differ in their holders only. -/
structure SameBut (store store' : ChunkStore) : Prop where
  cState : ∀ r, (store' r).cState = (store r).cState
  data : ∀ r, (store' r).data = (store r).data
  sha1 : ∀ r, (store' r).sha1 = (store r).sha1
  id : ∀ r, (store' r).id = (store r).id

theorem sameBut_addHolder (store : ChunkStore) (down : List ChunkRef) (hash : List UInt8)
    (holder : Option PeerRef) : SameBut store (addHolder store down hash holder) := by
  have hrecord : ∀ r, addHolder store down hash holder r =
      { store r with holders := (addHolder store down hash holder r).holders } := by
    intro r
    rw [addHolder]
    cases containsChunk store down hash with
    | none => rfl
    | some r' =>
        by_cases hr : r = r'
        · subst hr
          simp only [Function.update_self]
        · simp only [Function.update_of_ne hr]
  exact ⟨fun r ↦ by rw [hrecord], fun r ↦ by rw [hrecord], fun r ↦ by rw [hrecord],
    fun r ↦ by rw [hrecord]⟩

/-- An IHAVE packet changes holders only. -/
theorem processIHAVE_frame {pkt : Packet} {peer : Option PeerRef}
    (h : c.processIHAVE pkt peer = some c') :
    SameBut c.chunks c'.chunks ∧ c'.downChunks = c.downChunks ∧ c'.doneChunks = c.doneChunks ∧
      c'.receiverPool = c.receiverPool := by
  obtain ⟨iHave, -, rfl⟩ := Option.map_eq_some_iff.mp h
  refine ⟨?_, rfl, rfl, rfl⟩
  have hfold : ∀ (l : List ChunkT) (store : ChunkStore), SameBut store
      (l.foldl (fun store h ↦ addHolder store c.downChunks h.hash peer) store) := by
    intro l
    induction l with
    | nil => exact fun store ↦ ⟨fun _ ↦ rfl, fun _ ↦ rfl, fun _ ↦ rfl, fun _ ↦ rfl⟩
    | cons x l ih =>
        intro store
        have h₁ := sameBut_addHolder store c.downChunks x.hash peer
        have h₂ := ih (addHolder store c.downChunks x.hash peer)
        exact ⟨fun r ↦ (h₂.cState r).trans (h₁.cState r), fun r ↦ (h₂.data r).trans (h₁.data r),
          fun r ↦ (h₂.sha1 r).trans (h₁.sha1 r), fun r ↦ (h₂.id r).trans (h₁.id r)⟩
  exact hfold iHave c.chunks

/-- `add_holder` appends to the holders of the record found. -/
theorem holders_addHolder (store : ChunkStore) (down : List ChunkRef) (hash : List UInt8)
    (holder : Option PeerRef) (ref : ChunkRef) :
    (addHolder store down hash holder ref).holders = (store ref).holders ++
      if containsChunk store down hash = some ref then [holder] else [] := by
  rw [addHolder]
  cases containsChunk store down hash with
  | none => simp
  | some r =>
      by_cases href : ref = r
      · subst href
        simp
      · rw [if_neg fun h ↦ href (Option.some.inj h).symm, List.append_nil]
        simp only [Function.update_of_ne href]

/-- An IHAVE packet enters its sender once for every hash it lists that is found. -/
theorem holders_processIHAVE {pkt : Packet} {peer : Option PeerRef} {iHave : List ChunkT}
    (hpkt : pkt2chunks pkt .ihave = some iHave)
    (h : c.processIHAVE pkt peer = some c') (ref : ChunkRef) :
    (c'.chunks ref).holders = (c.chunks ref).holders ++ List.replicate
      (iHave.countP fun x ↦ containsChunk c.chunks c.downChunks x.hash = some ref) peer := by
  rw [processIHAVE, hpkt] at h
  cases h
  have hfold : ∀ (l : List ChunkT) (store : ChunkStore), (∀ r, (store r).sha1 = (c.chunks r).sha1) →
      (l.foldl (fun store x ↦ addHolder store c.downChunks x.hash peer) store ref).holders =
        (store ref).holders ++ List.replicate
          (l.countP fun x ↦ containsChunk c.chunks c.downChunks x.hash = some ref) peer := by
    intro l
    induction l with
    | nil => simp
    | cons x l ih =>
        intro store hstore
        have hsha := (sameBut_addHolder store c.downChunks x.hash peer).sha1
        rw [List.foldl_cons, ih _ fun r ↦ (hsha r).trans (hstore r), holders_addHolder,
          containsChunk_congr hstore, List.append_assoc, List.countP_cons]
        congr 1
        by_cases hfound : containsChunk c.chunks c.downChunks x.hash = some ref
        · simp [hfound, List.replicate_succ]
        · simp [hfound]
  exact hfold iHave c.chunks fun _ ↦ rfl

/-- A DATA packet is taken by the receiver of its peer. -/
theorem processDATA_of_get {pkt : Packet} {p : PeerRef} {rcvr : Receiver} {acks : List Packet}
    (hpool : c.receiverPool.Ok) (hget : getReceiver c.receiverPool (some p) = some rcvr)
    (h : c.processDATA shahash pkt (some p) = some (c', acks)) :
    ∃ r', rcvr.store (c.chunks rcvr.chunk).data pkt = some (r'.rcvr, r'.chunk) ∧
      r'.opened = (!decide r'.rcvr.Complete) ∧ c'.Connection p r' ∧
      c.DeliveryFrame c' p rcvr.chunk ∧ c'.chunks = c.storeAfter shahash rcvr.chunk r' := by
  cases hstore : rcvr.store (c.chunks rcvr.chunk).data pkt with
  | none =>
      rw [processDATA, hget] at h
      simp only [hstore] at h
      cases h
  | some out =>
      have hproc : Receiving.processDATA
          { rcvr := rcvr, chunk := (c.chunks rcvr.chunk).data, opened := true } pkt = some
          ({ rcvr := out.1, chunk := out.2, opened := !decide out.1.Complete },
            [makeACK (UInt32.ofNat out.1.lastRcvd)]) := by
        rw [Receiving.processDATA, if_pos rfl, hstore]
        rfl
      obtain ⟨c'', hc, hconn, hframe, -, hchunks⟩ :=
        (connection_of_get hget).processDATA shahash hpool hproc
      rw [hc, Option.some.injEq, Prod.mk.injEq] at h
      obtain ⟨rfl, -⟩ := h
      exact ⟨_, rfl, rfl, hconn, hframe, hchunks rfl⟩

/-- Without a receiver for the peer it is dropped. -/
theorem processDATA_cases {pkt : Packet} {peer : Option PeerRef} {acks : List Packet}
    (hpool : c.receiverPool.Ok) (h : c.processDATA shahash pkt peer = some (c', acks)) :
    c' = c ∨
    ∃ p rcvr r', peer = some p ∧ getReceiver c.receiverPool peer = some rcvr ∧
      rcvr.store (c.chunks rcvr.chunk).data pkt = some (r'.rcvr, r'.chunk) ∧
      r'.opened = (!decide r'.rcvr.Complete) ∧ c'.Connection p r' ∧
      c.DeliveryFrame c' p rcvr.chunk ∧ c'.chunks = c.storeAfter shahash rcvr.chunk r' := by
  cases hget : getReceiver c.receiverPool peer with
  | none =>
      rw [processDATA, hget] at h
      cases h
      exact .inl rfl
  | some rcvr =>
      obtain ⟨p, rfl⟩ := exists_peer_of_getReceiver hget
      obtain ⟨r', hr'⟩ := processDATA_of_get hpool hget h
      exact .inr ⟨p, rcvr, r', rfl, rfl, hr'⟩

/-! ## Any run -/

/-- What holds in every state of a download, whatever packets arrive. -/
structure Consistent (c₀ c : Client) : Prop where
  pool : c.receiverPool.Ok
  incomplete : ∀ p rcvr, getReceiver c.receiverPool (some p) = some rcvr → ¬ rcvr.Complete
  queues : (c.downChunks ++ c.doneChunks).Perm (c₀.downChunks ++ c₀.doneChunks)
  done : ∀ r ∈ c.doneChunks, (c.chunks r).cState = .finished
  sha1 : ∀ r, (c.chunks r).sha1 = (c₀.chunks r).sha1
  id : ∀ r, (c.chunks r).id = (c₀.chunks r).id

theorem consistent_start (max : Int) (lines : List (Int × List UInt8)) :
    (start max lines).Consistent (start max lines) where
  pool := ⟨rfl, List.nodup_nil⟩
  incomplete _ _ h := by cases h
  queues := .refl _
  done _ h := absurd h List.not_mem_nil
  sha1 _ := rfl
  id _ := rfl

/-- A new receiver has nothing yet. -/
theorem not_complete_newReceiver (p : PeerRef) (chunk : ChunkRef) :
    ¬ (newReceiver p chunk).Complete := by
  show ¬ btChunkSize ≤ 0 * dataSize
  rw [Nat.zero_mul]
  exact Nat.not_le_of_lt (by decide)

variable {c₀ : Client}

theorem Consistent.scanned (h : c₀.Consistent c) : c₀.Consistent c.scanned := by
  refine ⟨h.pool, h.incomplete, (scanChunkDone_perm _ _ _).trans h.queues, ?_, h.sha1, h.id⟩
  intro r hr
  rw [Client.scanned, scanChunkDone_eq] at hr
  rcases List.mem_append.mp hr with hold | hnew
  · exact h.done r hold
  · exact of_decide_eq_true (List.mem_filter.mp hnew).2

/-- The pool and the queues stay consistent whatever happens. -/
theorem Consistent.step (h : c₀.Consistent c) {e : DownloadEvent} (hstep : c.step shahash e = some c') :
    c₀.Consistent c' := by
  cases e with
  | lookAt =>
      cases hstep
      have hs := h.scanned
      rcases lookAt_cases c with heq | ⟨down, p, pool', hfree, hadd, heq⟩
      · rw [heq]
        exact hs
      · rw [heq]
        refine ⟨hs.pool.add hfree hadd, ?_, hs.queues, ?_, ?_, ?_⟩
        · intro q rcvr hget
          rw [attached, getReceiver_addReceiver hfree hadd hs.pool.counts] at hget
          split at hget
          · cases hget
            exact not_complete_newReceiver p down
          · exact hs.incomplete q rcvr hget
        · intro r hr
          show (updateState c.scanned.chunks c.scanned.downChunks down .downloading r).cState = _
          rw [updateState_of_finished (hs.done r hr)]
          exact hs.done r hr
        · intro r
          exact (sha1_updateState ..).trans (hs.sha1 r)
        · intro r
          exact (id_updateState ..).trans (hs.id r)
  | ihave pkt peer =>
      obtain ⟨hsame, hdown, hdone, hpool⟩ := processIHAVE_frame hstep
      refine ⟨hpool ▸ h.pool, ?_, ?_, ?_, fun r ↦ (hsame.sha1 r).trans (h.sha1 r),
        fun r ↦ (hsame.id r).trans (h.id r)⟩
      · intro p rcvr hget
        rw [hpool] at hget
        exact h.incomplete p rcvr hget
      · rw [hdown, hdone]
        exact h.queues
      · intro r hr
        rw [hdone] at hr
        exact (hsame.cState r).trans (h.done r hr)
  | data pkt peer =>
      obtain ⟨⟨c'', acks⟩, hproc, rfl⟩ := Option.map_eq_some_iff.mp hstep
      rcases processDATA_cases h.pool hproc with rfl | ⟨p, rcvr, r', rfl, hget, -, hopened, hconn,
        hframe, hchunks⟩
      · exact h
      · refine ⟨hframe.pool, ?_, ?_, ?_, fun r ↦ (hframe.sha1 r).trans (h.sha1 r),
          fun r ↦ (hframe.id r).trans (h.id r)⟩
        · intro q rcvr' hget'
          by_cases hq : p = q
          · subst hq
            rw [hconn.get] at hget'
            split at hget'
            · next hopen =>
                cases hget'
                rw [hopened] at hopen
                simpa using hopen
            · cases hget'
          · rw [hframe.others q hq] at hget'
            exact h.incomplete q rcvr' hget'
        · rw [hframe.down, hframe.done]
          exact h.queues
        · intro r hr
          rw [hframe.done] at hr
          have hfin := h.done r hr
          rw [hchunks, storeAfter]
          split
          · rw [cState_setData]
            exact hfin
          · have hset : ((c.setData rcvr.chunk r'.chunk).chunks r).cState = .finished := by
              rw [cState_setData]
              exact hfin
            rw [updateState_of_finished hset]
            exact hset

theorem consistent_of_run {max : Int} {lines : List (Int × List UInt8)} {es : List DownloadEvent}
    (hrun : Machine.run (step shahash) (start max lines) es = some c) :
    (start max lines).Consistent c :=
  Machine.invariant (fun _ _ _ h hstep ↦ h.step hstep) hrun (consistent_start max lines)

end Client

end BitTorrent
