import BitTorrent.Download.Resume
import BitTorrent.Peer.Downloads

/-!
# A download from its command to its file

With one download going on, its thread and the handlers do to the peer what the loop of
`pthread_receiver` and the handlers do to the download.  So the peers can help a download to its
end, and then the thread leaves the loop and `chunks2file` writes all its chunks.
-/

namespace BitTorrent.Downloader

variable {fopen : List UInt8 → Option (List UInt8)} {shahash : List UInt8 → List UInt8}
  {cfg : BtConfig} {lines : List (Int × List UInt8)} {c c' : Client}
  {contents : ChunkRef → ChunkData} {outf : List UInt8}

/-- Nothing but the thread and packets that help. -/
def Helps (contents : ChunkRef → ChunkData) : DownloaderEvent → Prop
  | .command _ => False
  | .download => False
  | .check _ => True
  | .lookAt _ => True
  | .ihave _ peer => peer ≠ none
  | .data pkt _ => ∃ r, pkt ∈ (chunk2pkts (contents r)).1

/-! ## From the loop to the thread -/

/-- A round of the loop, or a packet, is a run of the peer. -/
theorem reachesBy_loading_step {e : DownloadEvent} (he : Client.Helps contents e)
    (hstep : c.loopStep shahash e = some c') :
    Machine.ReachesBy (step fopen shahash) (Helps contents) (loading cfg outf lines c)
      (loading cfg outf lines c') := by
  cases e with
  | lookAt =>
      obtain ⟨out, hout, rfl⟩ := Option.map_eq_some_iff.mp hstep
      obtain ⟨hmore, hout⟩ := Option.ite_none_left_eq_some.mp hout
      cases hout
      refine ⟨[.check 0, .lookAt 0], fun e he ↦ ?_, run_lookAt_loading hmore⟩
      rcases List.mem_pair.mp he with rfl | rfl
      · trivial
      · trivial
  | ihave pkt peer =>
      have hihave : step fopen shahash (loading cfg outf lines c) (.ihave pkt peer) =
          (c.processIHAVE pkt peer).map (loading cfg outf lines) := rfl
      have hproc : c.processIHAVE pkt peer = some c' := hstep
      have hhelps : Helps contents (.ihave pkt peer) := he
      exact .single hhelps (by rw [hihave, hproc]; rfl)
  | data pkt peer =>
      have hdata : step fopen shahash (loading cfg outf lines c) (.data pkt peer) =
          ((c.processDATA shahash pkt peer).map Prod.fst).map (loading cfg outf lines) := rfl
      have hproc : (c.processDATA shahash pkt peer).map Prod.fst = some c' := hstep
      have hhelps : Helps contents (.data pkt peer) := he
      exact .single hhelps (by rw [hdata, hproc]; rfl)

/-- Where the loop and the handlers get to, the peer does. -/
theorem reachesBy_loading
    (hreach : Machine.ReachesBy (Client.loopStep shahash) (Client.Helps contents) c c') :
    Machine.ReachesBy (step fopen shahash) (Helps contents) (loading cfg outf lines c)
      (loading cfg outf lines c') := by
  have hsim : ∃ s, Machine.ReachesBy (step fopen shahash) (Helps contents)
      (loading cfg outf lines c) s ∧ s = loading cfg outf lines c' := by
    refine hreach.simulation (R := fun c s ↦ s = loading cfg outf lines c) ?_ rfl
    intro c e c' s hs he hstep
    exact ⟨_, hs ▸ reachesBy_loading_step he hstep, rfl⟩
  obtain ⟨s, hs, rfl⟩ := hsim
  exact hs

/-! ## The end of a download -/

/-- Every chunk of the request is done, with the numbers and hashes of its lines and the bytes
of the contents. -/
structure Complete (contents : ChunkRef → ChunkData) (lines : List (Int × List UInt8))
    (c : Client) : Prop where
  empty : c.downChunks = []
  done : c.doneChunks.Perm (List.range lines.length)
  record : ∀ (r : ChunkRef) l, lines[r]? = some l →
    (c.chunks r).id = l.1 ∧ (c.chunks r).sha1 = l.2 ∧ (c.chunks r).data = contents r

namespace Complete

/-- There is something to write. -/
theorem ne_nil (h : Complete contents lines c) (hne : lines ≠ []) : c.doneChunks ≠ [] := by
  intro hnone
  have hlen := h.done.length_eq
  rw [hnone, List.length_range, List.length_nil] at hlen
  exact hne (List.length_eq_zero_iff.mp hlen.symm)

/-- What is to be written is right. -/
theorem check (h : Complete contents lines c)
    (hright : ∀ (r : ChunkRef) l, lines[r]? = some l → checkChunk shahash (contents r) l.2 = true) :
    ∀ r ∈ c.doneChunks, checkChunk shahash (c.chunks r).data (c.chunks r).sha1 = true := by
  intro r hr
  obtain ⟨-, hsha1, hdata⟩ :=
    h.record r _ (List.getElem?_eq_getElem (List.mem_range.mp (h.done.mem_iff.mp hr)))
  rw [hsha1, hdata]
  exact hright r _ (List.getElem?_eq_getElem _)

end Complete

/-- A download that has just begun can get there, and is written then. -/
theorem exists_written (fopen : List UInt8 → Option (List UInt8)) (cfg : BtConfig)
    (outf : List UInt8) (hsize : ∀ m, (shahash m).length = sha1HashSize)
    (hmax : 1 ≤ cfg.maxConn) (hdistinct : (lines.map fun l ↦ l.2.take (2 * sha1HashSize)).Nodup)
    (hne : lines ≠ []) (hright : ∀ (r : ChunkRef) l, lines[r]? = some l →
      checkChunk shahash (contents r) l.2 = true) :
    ∃ s d c, Machine.ReachesBy (step fopen shahash) (Helps contents)
        (loading cfg outf lines (.start cfg.maxConn lines)) s ∧
      s.downloads = [d] ∧ d.lines = lines ∧
      d.written = [(cfg.outputFile, c.chunks2file shahash)] ∧ Complete contents lines c := by
  have hsane := Client.sane_start cfg.maxConn lines
  obtain ⟨c, hreach, hleft, hdone, -, hdata⟩ :=
    hsane.exists_ended (fun p rcvr hget ↦ by cases hget) hsize hmax hdistinct hright
  have hkept := (hsane.reachesBy hreach).consistent
  have hcomplete : Complete contents lines c := by
    refine ⟨Client.pthreadReceiver_eq_none_iff.mp hleft, hdone, fun r l hl ↦ ?_⟩
    obtain ⟨hr, hline⟩ := List.getElem?_eq_some_iff.mp hl
    have hnew : (Client.start cfg.maxConn lines).chunks r = initChunk l.1 l.2 := by
      rw [← hline]
      exact Client.chunks_start _ hr
    refine ⟨by rw [hkept.id, hnew]; rfl, by rw [hkept.sha1, hnew]; rfl, hdata r hr ?_ ?_⟩
    · rw [hnew]
      exact ChunkState.noConfusion
    · intro p rcvr hget
      cases hget
  have hhelps : Helps contents (.check 0) := trivial
  exact ⟨_, _, c, (reachesBy_loading hreach).trans (.single hhelps
    (check_loading hcomplete.empty (hcomplete.ne_nil hne))), rfl, rfl, rfl, hcomplete⟩

end BitTorrent.Downloader
