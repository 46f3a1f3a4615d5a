import BitTorrent.Download.Finished
import BitTorrent.Tracker.Announce

/-!
# The two queues

`process_download` puts the chunks of the request into `down_chunks`.  From there only
`scan_chunk_done` takes them, at the start of `look_at`, and only to put them into
`down_chunks` or `done_chunks` again, whatever the handlers do to their states.  So the two
queues always hold the request between them, and `pthread_receiver` leaves its loop with all
of it done.
-/

namespace BitTorrent

/-- The chunks of a request, as `list_chunks` reads them.  A chunk file that cannot be opened
leaves `down_chunks` `NULL`, which everything that follows treats like an empty queue. -/
def requestedLines (chunkFile : Option (List UInt8)) : List (Int × List UInt8) :=
  ((listChunks chunkFile).getD []).map fun c ↦ (c.id, c.sha1)

namespace Client

/-- What `process_download` makes of the globals. -/
def processDownload (max : Int) (chunkFile : Option (List UInt8)) : Client :=
  start max (requestedLines chunkFile)

/-- One round of the loop of `pthread_receiver`.  There is no value where the loop is left. -/
def pthreadReceiver (c : Client) : Option (Client × List (PeerRef × Packet)) :=
  if c.downChunks = [] then none else some c.lookAt

/-- The chunks of a queue that are finished, in their order. -/
def finishedOf (store : ChunkStore) (queue : List ChunkRef) : List ChunkRef :=
  queue.filter fun r ↦ decide ((store r).cState = .finished)

/-- The chunks of a queue that are not finished, in their order. -/
def unfinishedOf (store : ChunkStore) (queue : List ChunkRef) : List ChunkRef :=
  queue.filter fun r ↦ !decide ((store r).cState = .finished)

/-- The two queues hold the records of the request between them, each once. -/
structure HoldsRequest (lines : List (Int × List UInt8)) (c : Client) : Prop where
  queues : (c.downChunks ++ c.doneChunks).Perm (List.range lines.length)
  records : ((List.range lines.length).map fun r ↦ ((c.chunks r).id, (c.chunks r).sha1)) = lines

variable {shahash : List UInt8 → List UInt8} {c : Client} {es : List DownloadEvent}
  {lines : List (Int × List UInt8)} {max : Int}

/-- The records of a request are its lines. -/
theorem records_start (max : Int) (lines : List (Int × List UInt8)) :
    ((List.range lines.length).map fun r ↦
      (((start max lines).chunks r).id, ((start max lines).chunks r).sha1)) = lines := by
  apply List.ext_getElem
  · rw [List.length_map, List.length_range]
  · intro i hi hi'
    rw [List.getElem_map, List.getElem_range, chunks_start max hi']
    rfl

/-- They stay so, in whatever order the queues hold them. -/
theorem Consistent.holdsRequest (h : (start max lines).Consistent c) : HoldsRequest lines c := by
  constructor
  · have hqueues := h.queues
    rwa [start, List.append_nil] at hqueues
  · simp only [h.id, h.sha1]
    exact records_start max lines

/-- `look_at` changes the queues by `scan_chunk_done` only. -/
theorem queues_lookAt (c : Client) :
    (c.lookAt.1.downChunks, c.lookAt.1.doneChunks) =
      scanChunkDone c.chunks c.downChunks c.doneChunks := by
  rcases lookAt_cases c with heq | ⟨down, p, pool', -, -, heq⟩
  · rw [heq]
    rfl
  · rw [heq]
    rfl

theorem pthreadReceiver_eq_none_iff : c.pthreadReceiver = none ↔ c.downChunks = [] := by
  rw [pthreadReceiver]
  split
  · next hempty => exact iff_of_true rfl hempty
  · next hmore => exact iff_of_false (Option.some_ne_none _) hmore

/-- With nothing left to do, everything is done. -/
theorem HoldsRequest.done_of_empty (h : HoldsRequest lines c) (hempty : c.downChunks = []) :
    c.doneChunks.Perm (List.range lines.length) := by
  have hqueues := h.queues
  rwa [hempty, List.nil_append] at hqueues

/-- Whatever has happened: the queues hold the request between them, what is done is
finished, the next `look_at` moves the finished chunks and leaves the others, both in their
order, and the thread leaves its loop only with the whole request done. -/
theorem queues_hold_request {chunkFile : Option (List UInt8)}
    (hrun : Machine.run (step shahash) (processDownload max chunkFile) es = some c) :
    HoldsRequest (requestedLines chunkFile) c ∧
    (∀ r ∈ c.doneChunks, (c.chunks r).cState = .finished) ∧
    (c.lookAt.1.downChunks = unfinishedOf c.chunks c.downChunks ∧
      c.lookAt.1.doneChunks = c.doneChunks ++ finishedOf c.chunks c.downChunks) ∧
    (c.pthreadReceiver = none →
      c.doneChunks.Perm (List.range (requestedLines chunkFile).length)) := by
  have hc : (processDownload max chunkFile).Consistent c := consistent_of_run hrun
  have hholds := hc.holdsRequest
  refine ⟨hholds, hc.done, ?_, fun h ↦ hholds.done_of_empty (pthreadReceiver_eq_none_iff.mp h)⟩
  rw [← Prod.mk.injEq, queues_lookAt, scanChunkDone_eq]
  rfl

/-- The request of a chunk of zeros. -/
theorem processDownload_zeroHashFile (max : Int) :
    processDownload max (some zeroHashFile) = start max zeroLine := by
  have hlines : requestedLines (some zeroHashFile) = zeroLine := rfl
  rw [processDownload, hlines]

/-- Its one chunk is fetched: once it is finished the next look moves it, and with that the
thread leaves its loop. -/
theorem queues_hold_request_zeros : ∃ c c',
    Machine.run (step firstBytes) (processDownload 1 (some zeroHashFile)) (askZeros ++ sendZeros) =
      some c ∧
    (c.chunks 0).cState = .finished ∧ c.downChunks = [0] ∧ HoldsRequest zeroLine c ∧
    c.lookAt.1.downChunks = [] ∧ c.lookAt.1.doneChunks = [0] ∧
    Machine.run (step firstBytes) (processDownload 1 (some zeroHashFile)) fetchZeros = some c' ∧
    c'.pthreadReceiver = none ∧ c'.doneChunks.Perm [0] := by
  obtain ⟨c₁, c, hask, hsend, hdown, hdone, hfin, -⟩ := run_zeros
  obtain ⟨c', hrun', -, hdown', -⟩ := run_fetchZeros
  have hrun := Machine.run_trans hask hsend
  rw [← processDownload_zeroHashFile] at hrun hrun'
  obtain ⟨hholds, -, ⟨hstay, hmove⟩, -⟩ := queues_hold_request hrun
  obtain ⟨-, -, -, hleft⟩ := queues_hold_request hrun'
  have hnone : c'.pthreadReceiver = none := pthreadReceiver_eq_none_iff.mpr hdown'
  refine ⟨c, c', hrun, hfin, hdown, hholds, ?_, ?_, hrun', hnone, hleft hnone⟩
  · rw [hstay, unfinishedOf, hdown]
    simp [hfin]
  · rw [hmove, finishedOf, hdown, hdone]
    simp [hfin]

end Client

end BitTorrent
