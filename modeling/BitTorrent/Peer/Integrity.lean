import BitTorrent.Chunk.Buffers
import BitTorrent.Download.Output
import BitTorrent.Peer.Loading
import BitTorrent.Sha.Collision
import BitTorrent.Tracker.MakeChunks

/-!
# What a download can leave on the disk

Whoever answers, and in whatever order packets, commands and threads come: what
`chunks2file` writes has passed `check_chunk` at the offset of a line of the
request.  If these lines are lines that `make-chunks` prints for a file, each
chunk in the output file is the one of that file, and there is nothing else in
it, unless what was written and a piece of the file show a collision of
`SHA1Guts`.
-/

namespace BitTorrent

variable {fopen : List UInt8 → Option (List UInt8)} {shahash : List UInt8 → List UInt8}
  {file : List UInt8} {max : Int}

/-- What the loop of `chunks2file` writes has the right hash. -/
theorem Client.mem_chunks2fileLoop {store : ChunkStore} {done : List ChunkRef}
    {b : Int × ChunkData} (hb : b ∈ chunks2fileLoop shahash store done) :
    ∃ r ∈ done, b = (chunkOffset (store r).id, (store r).data) ∧
      checkChunk shahash (store r).data (store r).sha1 = true := by
  induction done with
  | nil => cases hb
  | cons r done ih =>
      rw [chunks2fileLoop] at hb
      split at hb
      · next hcheck =>
        rcases List.mem_cons.mp hb with rfl | hb
        · exact ⟨r, List.mem_cons_self .., rfl, hcheck⟩
        · obtain ⟨r', hr', heq⟩ := ih hb
          exact ⟨r', List.mem_cons_of_mem _ hr', heq⟩
      · cases hb

/-! ## Every write is checked -/

namespace Download

variable {d : Download}

/-- Each chunk written is checked, and at the offset of a line of the request. -/
def Audited (shahash : List UInt8 → List UInt8) (d : Download) : Prop :=
  ∀ w ∈ d.written, ∀ b ∈ w.2, ∃ l ∈ d.lines,
    b.1 = Client.chunkOffset l.1 ∧ checkChunk shahash b.2 l.2 = true

/-- The record in a queue is that of a line. -/
theorem Ok.getElem?_lines (h : d.Ok max) {r : ChunkRef} (hr : r ∈ d.client.doneChunks) :
    d.lines[r]? = some ((d.client.chunks r).id, (d.client.chunks r).sha1) := by
  obtain ⟨hqueues, hrecords⟩ := h.consistent.holdsRequest
  have hlt : r < d.lines.length :=
    List.mem_range.mp (hqueues.mem_iff.mp (List.mem_append_right _ hr))
  have hget := congrArg (fun l ↦ l[r]?) hrecords
  simp only [List.getElem?_map, List.getElem?_range hlt, Option.map_some] at hget
  exact hget.symm

theorem Ok.audited_chunks2file (h : d.Ok max) (haud : d.Audited shahash) (outputFile : List UInt8) :
    (d.chunks2file shahash outputFile).Audited shahash := by
  rw [Download.chunks2file]
  split
  · exact haud
  · intro w hw b hb
    rcases List.mem_append.mp hw with hold | hnew
    · exact haud w hold b hb
    · rw [List.mem_singleton.mp hnew, Client.chunks2file] at hb
      split at hb
      · cases hb
      · obtain ⟨r, hr, rfl, hcheck⟩ := Client.mem_chunks2fileLoop hb
        exact ⟨_, List.mem_of_getElem? (h.getElem?_lines hr), rfl, hcheck⟩

end Download

namespace Downloader

variable {s s' : Downloader} {e : DownloaderEvent} {d : Download} {cfg : BtConfig}
  {es : List DownloaderEvent}

/-- All downloads are. -/
def Audited (shahash : List UInt8 → List UInt8) (s : Downloader) : Prop :=
  ∀ d ∈ s.downloads, d.Ok s.cfg.maxConn ∧ d.Audited shahash

/-- Another download in front, which is as it should be. -/
theorem Audited.set_head (h : s.Audited shahash) {ds : List Download} {d' : Download}
    {threads : List ReceiverPhase} (hds : s.downloads = d :: ds)
    (hd' : d'.Ok s.cfg.maxConn ∧ d'.Audited shahash) :
    { s with downloads := d' :: ds, threads := threads }.Audited shahash := by
  intro x hx
  rcases List.mem_cons.mp hx with rfl | hx
  · exact hd'
  · exact h x (hds ▸ List.mem_cons_of_mem _ hx)

theorem Audited.withGlobals (h : s.Audited shahash) {e : DownloadEvent}
    (hstep : s.withGlobals (fun c ↦ c.step shahash e) = some s') : s'.Audited shahash := by
  rcases withGlobals_cases hstep with rfl | ⟨d, ds, client, hds, hfreed, hclient, rfl⟩
  · exact h
  · obtain ⟨hok, haud⟩ := h d (hds ▸ List.mem_cons_self ..)
    exact h.set_head hds ⟨hok.step hfreed hclient, haud⟩

theorem Audited.check (h : s.Audited shahash) {t : Nat} (hstep : s.check shahash t = some s') :
    s'.Audited shahash := by
  rw [Downloader.check] at hstep
  split at hstep
  · cases hstep
  · next d ds hds =>
      obtain ⟨hok, haud⟩ := h d (hds ▸ List.mem_cons_self ..)
      rw [Option.ite_none_left_eq_some] at hstep
      obtain ⟨-, hstep⟩ := hstep
      split at hstep
      · next hempty =>
          cases hstep
          exact h.set_head hds
            ⟨(hok.chunks2file hempty shahash s.cfg.outputFile).1, hok.audited_chunks2file haud _⟩
      · cases hstep
        exact h

theorem Audited.step (h : s.Audited shahash) (hstep : s.step fopen shahash e = some s') :
    s'.Audited shahash := by
  cases e with
  | command line =>
      rw [Downloader.step, Option.ite_none_left_eq_some] at hstep
      obtain ⟨-, hstep⟩ := hstep
      split at hstep
      · cases hstep
        exact h
      · cases hstep
        exact h
  | download =>
      obtain ⟨-, hstep⟩ := Option.ite_none_right_eq_some.mp hstep
      cases hstep
      intro x hx
      rcases List.mem_cons.mp hx with rfl | hx
      · exact ⟨⟨Client.consistent_start _ _, by simp, fun hc ↦ Bool.noConfusion hc⟩,
          fun w hw ↦ absurd hw List.not_mem_nil⟩
      · exact h x hx
  | check t =>
      obtain ⟨-, hstep⟩ := Option.ite_none_right_eq_some.mp hstep
      exact h.check hstep
  | lookAt t =>
      obtain ⟨-, hstep⟩ := Option.ite_none_right_eq_some.mp hstep
      obtain ⟨s₁, hlook, rfl⟩ := Option.map_eq_some_iff.mp hstep
      have haud := h.withGlobals hlook
      exact haud
  | ihave pkt peer => exact h.withGlobals (Option.ite_none_left_eq_some.mp hstep).2
  | data pkt peer => exact h.withGlobals (Option.ite_none_left_eq_some.mp hstep).2

theorem audited_of_run (hrun : Machine.run (step fopen shahash) (start cfg) es = some s) :
    s.Audited shahash :=
  Machine.invariant (fun _ _ _ h hstep ↦ h.step hstep) hrun
    fun _ hd ↦ absurd hd List.not_mem_nil

end Downloader

/-! ## The lines of a file -/

/-- The lines that `make-chunks` prints for a file, as they are listed. -/
def linesOf (file : List UInt8) : List (Int × List UInt8) :=
  requestedLines (some (printChunks (makeChunks Sha1.hash file)))

/-- The pieces of a file that is not too large have small numbers. -/
theorem lt_of_getElem?_filePieces (hfile : file.length ≤ 4096 * btChunkSize) {i : Nat}
    {piece : List UInt8} (h : (filePieces file.length file)[i]? = some piece) : i < 4096 := by
  rw [getElem?_filePieces (Nat.le_refl _), Option.ite_none_right_eq_some] at h
  rw [btChunkSize_eq] at h hfile
  omega

/-- There is a line for each piece, with its number and its hash. -/
theorem linesOf_pieces (hfile : file.length ≤ 4096 * btChunkSize) :
    (linesOf file).length = (filePieces file.length file).length ∧
    ∀ (i : Nat) l, (linesOf file)[i]? = some l →
      ∃ piece, (filePieces file.length file)[i]? = some piece ∧ l.1 = i ∧
        l.2.take (2 * sha1HashSize) = (Sha1.hash piece).flatMap byteHex := by
  have hsize : ∀ h ∈ makeChunks Sha1.hash file, h.length = sha1HashSize := by
    intro h hh
    obtain ⟨piece, -, rfl⟩ := List.mem_map.mp hh
    exact Sha1.length_hash piece
  have hcount : (makeChunks Sha1.hash file).length < 2 ^ 31 := by
    rw [makeChunks, List.length_map]
    by_contra hbig
    have hlt : 4096 < (filePieces file.length file).length := by omega
    exact absurd (lt_of_getElem?_filePieces hfile (List.getElem?_eq_getElem hlt)) (Nat.lt_irrefl _)
  rw [linesOf, requestedLines, listChunks_of_printed hsize hcount, Option.getD_some, List.map_map]
  refine ⟨by rw [List.length_map, List.length_zipIdx, makeChunks, List.length_map], fun i l hl ↦ ?_⟩
  rw [List.getElem?_map, List.getElem?_zipIdx, Option.map_map] at hl
  obtain ⟨hash, hhash, rfl⟩ := Option.map_eq_some_iff.mp hl
  have hlt : i < (makeChunks Sha1.hash file).length := (List.getElem?_eq_some_iff.mp hhash).1
  obtain ⟨piece, hpiece, rfl⟩ := Option.map_eq_some_iff.mp ((List.getElem?_map ..).symm.trans hhash)
  have hrecord := isNewChunk_printChunk (hsize _ (List.mem_of_getElem? hhash)) (hlt.trans hcount)
  simp only [Function.comp_apply, Nat.zero_add]
  refine ⟨piece, hpiece, hrecord.id_eq, ?_⟩
  rw [← hrecord.text, ← hrecord.length_text]
  exact List.prefix_iff_eq_take.mp (List.takeWhile_prefix _) |>.symm

/-! ## Files of whole chunks -/

/-- The chunks that a peer with the file reads from it. -/
def contentsOf (file : List UInt8) (r : ChunkRef) : ChunkData := readChunk (.fill 0) file (r : Nat)

/-- A file of whole chunks. -/
structure WholeChunks (file : List UInt8) (n : Nat) : Prop where
  length_eq : file.length = n * btChunkSize
  pos : 0 < n
  le : n ≤ 4096

namespace WholeChunks

variable {n : Nat}

theorem length_le (h : WholeChunks file n) : file.length ≤ 4096 * btChunkSize :=
  h.length_eq.trans_le (Nat.mul_le_mul_right _ h.le)

/-- The chunk that is read is the piece. -/
theorem bytes_contentsOf (h : WholeChunks file n) {r : ChunkRef} (hr : r < n) :
    (contentsOf file r).bytes = (file.drop (r * btChunkSize)).take btChunkSize := by
  have hle : (r + 1) * btChunkSize ≤ file.length := by
    rw [h.length_eq]
    exact Nat.mul_le_mul_right btChunkSize hr
  rw [contentsOf, bytes_readChunk _ hle]
  exact readsOwn_of_lt file (Nat.lt_of_lt_of_le hr h.le)

theorem getElem?_pieces (h : WholeChunks file n) (i : Nat) :
    (filePieces file.length file)[i]? =
      if i < n then some (contentsOf file i).bytes else none := by
  have hsize : 0 < btChunkSize := by decide
  rw [getElem?_filePieces (Nat.le_refl _), h.length_eq]
  simp only [Nat.mul_lt_mul_right hsize]
  split
  · next hlt => rw [h.bytes_contentsOf hlt]
  · rfl

theorem length_pieces (h : WholeChunks file n) : (filePieces file.length file).length = n := by
  apply le_antisymm
  · by_contra hlt
    have hget := h.getElem?_pieces n
    rw [if_neg (Nat.lt_irrefl n), List.getElem?_eq_none_iff] at hget
    exact hlt hget
  · by_contra hlt
    have hget := h.getElem?_pieces (filePieces file.length file).length
    rw [if_pos (Nat.lt_of_not_le hlt), List.getElem?_length] at hget
    cases hget

/-- A line has the number and the hash of its chunk. -/
theorem getElem?_linesOf (h : WholeChunks file n) {r : ChunkRef} {l : Int × List UInt8}
    (hl : (linesOf file)[r]? = some l) : l.1 = (r : Nat) ∧
      l.2.take (2 * sha1HashSize) = (Sha1.hash (contentsOf file r).bytes).flatMap byteHex := by
  obtain ⟨piece, hpiece, hid, hsha1⟩ := (linesOf_pieces h.length_le).2 r l hl
  rw [h.getElem?_pieces, Option.ite_none_right_eq_some, Option.some.injEq] at hpiece
  rw [hpiece.2]
  exact ⟨hid, hsha1⟩

theorem length_linesOf (h : WholeChunks file n) : (linesOf file).length = n :=
  (linesOf_pieces h.length_le).1.trans h.length_pieces

theorem linesOf_ne_nil (h : WholeChunks file n) : linesOf file ≠ [] := by
  intro hnone
  have hlen := h.length_linesOf
  rw [hnone, List.length_nil] at hlen
  exact absurd h.pos (hlen ▸ Nat.lt_irrefl 0)

/-- A chunk passes the check of its line. -/
theorem checkChunk_contentsOf (h : WholeChunks file n) {r : ChunkRef} {l : Int × List UInt8}
    (hl : (linesOf file)[r]? = some l) : checkChunk Sha1.hash (contentsOf file r) l.2 = true := by
  rw [checkChunk_iff (Sha1.length_hash _), (h.getElem?_linesOf hl).2]

/-- Chunks with hashes of their own have lines with texts of their own. -/
theorem nodup_linesOf (h : WholeChunks file n)
    (hdistinct : ((filePieces file.length file).map Sha1.hash).Nodup) :
    ((linesOf file).map fun l ↦ l.2.take (2 * sha1HashSize)).Nodup := by
  have heq : ((linesOf file).map fun l ↦ l.2.take (2 * sha1HashSize)) =
      ((filePieces file.length file).map Sha1.hash).map fun hash ↦ hash.flatMap byteHex := by
    apply List.ext_getElem
    · rw [List.length_map, List.length_map, List.length_map, h.length_linesOf, h.length_pieces]
    · intro i hi hi'
      simp only [List.length_map] at hi hi'
      obtain ⟨-, htext⟩ := h.getElem?_linesOf (List.getElem?_eq_getElem hi)
      have hpiece := h.getElem?_pieces i
      rw [List.getElem?_eq_getElem hi', if_pos (h.length_pieces ▸ hi'), Option.some.injEq] at hpiece
      rw [List.getElem_map, List.getElem_map, List.getElem_map, htext, hpiece]
  rw [heq]
  exact hdistinct.map fun _ _ ↦ flatMap_byteHex_inj

end WholeChunks

/-! ## What passes the check -/

/-- What passes the check of a line is the piece. -/
theorem eq_piece_or_gutsCollision {data : ChunkData} {sha1 piece : List UInt8} {i : Nat}
    (hpiece : (filePieces file.length file)[i]? = some piece)
    (hsha1 : sha1.take (2 * sha1HashSize) = (Sha1.hash piece).flatMap byteHex)
    (hcheck : checkChunk Sha1.hash data sha1 = true) :
    data.bytes = piece ∨ GutsCollision data.bytes piece := by
  rw [checkChunk_iff (Sha1.length_hash _), hsha1] at hcheck
  have hlen := (of_mem_filePieces (Nat.le_refl _) piece (List.mem_of_getElem? hpiece)).2
  rw [gutsCollision_iff]
  have hsmall : btChunkSize < 2 ^ 61 := by decide
  exact Sha1.eq_or_collision (data.size_eq.trans_lt hsmall) (hlen.trans_lt hsmall)
    (flatMap_byteHex_inj hcheck)

/-! ## The output file -/

/-- The bytes of a file to which `chunks2file` has written. -/
def writtenBytes (writes : List (Int × ChunkData)) : List UInt8 :=
  (Stdio.OutFile.create.writeAll (writes.map fun b ↦ (b.1, b.2.bytes))).bytes

/-- Where a chunk was written, the output file has the bytes of `file`, elsewhere it has
zeros, and it is not longer than `file`. -/
structure Download.Excerpt (file : List UInt8) (writes : List (Int × ChunkData)) : Prop where
  length_le : (writtenBytes writes).length ≤ file.length
  getD_eq : ∀ i, (writtenBytes writes).getD i 0 =
    if ∃ b ∈ writes, b.1 = (i / btChunkSize * btChunkSize : Nat) then file.getD i 0 else 0

/-- Chunks at the offsets of their pieces. -/
theorem excerpt_of_pieces {writes : List (Int × ChunkData)}
    (h : ∀ b ∈ writes, ∃ i < 4096, b.1 = Client.chunkOffset (i : Nat) ∧
      (filePieces file.length file)[i]? = some b.2.bytes) : Download.Excerpt file writes := by
  have hblock : ∀ b ∈ writes, ∃ i : Nat, b.1 = (i * btChunkSize : Nat) ∧
      b.2.bytes = (file.drop (i * btChunkSize)).take btChunkSize := by
    intro b hb
    obtain ⟨i, hi, hoff, hpiece⟩ := h b hb
    exact ⟨i, hoff.trans (chunkOffset_of_lt hi), (eq_piece hpiece).1⟩
  have hsize : 0 < btChunkSize := by decide
  let blocks := writes.map fun b ↦ (b.1.toNat / btChunkSize, b.2.bytes)
  have hnum : ∀ b ∈ writes, b.1 = (b.1.toNat / btChunkSize * btChunkSize : Nat) := by
    intro b hb
    obtain ⟨i, hoff, -⟩ := hblock b hb
    rw [hoff, Int.toNat_natCast, Nat.mul_div_cancel _ hsize]
  have hbytes : writtenBytes writes = Stdio.writeBlocks btChunkSize blocks := by
    have hwrites : (writes.map fun b ↦ (b.1, b.2.bytes)) =
        blocks.map fun b ↦ (((b.1 * btChunkSize : Nat) : Int), b.2) := by
      rw [List.map_map]
      exact List.map_congr_left fun b hb ↦ Prod.ext (hnum b hb) rfl
    rw [writtenBytes, hwrites, Stdio.bytes_writeAll]
    rfl
  have hcuts : ∀ b ∈ blocks, b.2 = (file.drop (b.1 * btChunkSize)).take btChunkSize ∧
      b.2.length = btChunkSize := by
    intro b hb
    obtain ⟨w, hw, rfl⟩ := List.mem_map.mp hb
    obtain ⟨i, hoff, hcut⟩ := hblock w hw
    refine ⟨?_, w.2.size_eq⟩
    rw [hoff, Int.toNat_natCast, Nat.mul_div_cancel _ hsize]
    exact hcut
  obtain ⟨hle, hget⟩ := Stdio.getD_writeBlocks_of_cut hsize hcuts
  rw [← hbytes] at hle hget
  refine ⟨hle, fun i ↦ (hget i).trans (if_congr ?_ rfl rfl)⟩
  constructor
  · rintro ⟨b, hb, heq⟩
    obtain ⟨w, hw, rfl⟩ := List.mem_map.mp hb
    exact ⟨w, hw, by rw [← heq]; exact hnum w hw⟩
  · rintro ⟨b, hb, heq⟩
    refine ⟨_, List.mem_map_of_mem hb, ?_⟩
    show b.1.toNat / btChunkSize = i / btChunkSize
    rw [heq, Int.toNat_natCast, Nat.mul_div_cancel _ hsize]

namespace Downloader

variable {s : Downloader} {cfg : BtConfig} {es : List DownloaderEvent} {d : Download}

/-- In every run, whoever sends what: if the lines requested are lines printed for `file`,
whatever a download has written is an excerpt of `file`, or one of the chunks written and a
piece of the file show a collision. -/
theorem written_excerpt_or_gutsCollision (hfile : file.length ≤ 4096 * btChunkSize)
    (hrun : Machine.run (step fopen Sha1.hash) (start cfg) es = some s) (hd : d ∈ s.downloads)
    (hlines : d.lines ⊆ linesOf file) :
    (∀ w ∈ d.written, Download.Excerpt file w.2) ∨
      ∃ w ∈ d.written, ∃ b ∈ w.2, ∃ piece ∈ filePieces file.length file,
        GutsCollision b.2.bytes piece := by
  by_cases hcol : ∃ w ∈ d.written, ∃ b ∈ w.2, ∃ piece ∈ filePieces file.length file,
      GutsCollision b.2.bytes piece
  · exact .inr hcol
  · refine .inl fun w hw ↦ excerpt_of_pieces fun b hb ↦ ?_
    obtain ⟨l, hl, hoff, hcheck⟩ := (audited_of_run hrun d hd).2 w hw b hb
    obtain ⟨i, hi⟩ := List.mem_iff_getElem?.mp (hlines hl)
    obtain ⟨piece, hpiece, hid, hsha1⟩ := (linesOf_pieces hfile).2 i l hi
    refine ⟨i, lt_of_getElem?_filePieces hfile hpiece, hid ▸ hoff, ?_⟩
    rcases eq_piece_or_gutsCollision hpiece hsha1 hcheck with heq | hguts
    · rw [heq, hpiece]
    · exact absurd ⟨w, hw, b, hb, piece, List.mem_of_getElem? hpiece, hguts⟩ hcol

/-- After a command for the list of a file of whole chunks, which differ in their hashes, the
peers can bring the download to its end. -/
theorem exists_written_of_command (fopen : List UInt8 → Option (List UInt8)) (cfg : BtConfig)
    {n : Nat} {line chunkf outf : List UInt8}
    (hfile : WholeChunks file n) (hdistinct : ((filePieces file.length file).map Sha1.hash).Nodup)
    (hmax : 1 ≤ cfg.maxConn) (hcmd : scanCommand line = some (chunkf, outf))
    (hlist : fopen chunkf = some (printChunks (makeChunks Sha1.hash file))) :
    ∃ s₀ s d c,
      Machine.run (step fopen Sha1.hash) (start cfg) [.command line, .download] = some s₀ ∧
      Machine.ReachesBy (step fopen Sha1.hash) (Helps (contentsOf file)) s₀ s ∧
      s.downloads = [d] ∧ d.lines = linesOf file ∧ d.written = [(outf, c.chunks2file Sha1.hash)] ∧
      Complete (contentsOf file) (linesOf file) c := by
  have hlines : requestedLines (fopen chunkf) = linesOf file := by rw [hlist, linesOf]
  have hstart : Machine.run (step fopen Sha1.hash) (start cfg) [.command line, .download] =
      some (loading (cfg.setFiles chunkf outf) outf (linesOf file)
        (.start (cfg.setFiles chunkf outf).maxConn (linesOf file))) := hlines ▸ run_command hcmd
  obtain ⟨s, d, c, hreach, hwritten⟩ := exists_written fopen (cfg.setFiles chunkf outf) outf
    Sha1.length_hash hmax (hfile.nodup_linesOf hdistinct) hfile.linesOf_ne_nil
    fun _ _ hl ↦ hfile.checkChunk_contentsOf hl
  exact ⟨_, s, d, c, hstart, hreach, hwritten⟩

/-- One chunk of zeros. -/
theorem wholeChunks_zeros : WholeChunks (ChunkData.fill 0).bytes 1 :=
  ⟨(ChunkData.size_eq _).trans (Nat.one_mul _).symm, Nat.one_pos, by decide⟩

theorem nodup_pieces_zeros : ((filePieces (ChunkData.fill 0).bytes.length
    (ChunkData.fill 0).bytes).map Sha1.hash).Nodup := by
  obtain ⟨piece, hpiece⟩ := List.length_eq_one_iff.mp wholeChunks_zeros.length_pieces
  rw [hpiece]
  exact List.nodup_singleton _

/-- A peer that has only the list `a` of what is requested, which is that of `file`. -/
def listOf (file name : List UInt8) : Option (List UInt8) :=
  if name = [97] then some (printChunks (makeChunks Sha1.hash file)) else none

/-- `GET a b` for a chunk of zeros, up to the end of the download: its chunk has been written. -/
theorem written_excerpt_or_gutsCollision_zeros : ∃ es s d b,
    Machine.run (step (listOf (ChunkData.fill 0).bytes) Sha1.hash) (start masterConfig)
      (.command getCommand :: .download :: es) = some s ∧
    d ∈ s.downloads ∧ d.written = [([98], [b])] ∧
    ((∀ w ∈ d.written, Download.Excerpt (ChunkData.fill 0).bytes w.2) ∨
      ∃ w ∈ d.written, ∃ b ∈ w.2,
        ∃ piece ∈ filePieces (ChunkData.fill 0).bytes.length (ChunkData.fill 0).bytes,
          GutsCollision b.2.bytes piece) := by
  have hfile := wholeChunks_zeros
  obtain ⟨s₀, s, d, c, hstart, ⟨es, -, hes⟩, hd, hlines, hwritten, hcomplete⟩ :=
    exists_written_of_command (listOf (ChunkData.fill 0).bytes) masterConfig hfile
      nodup_pieces_zeros (by decide) scanCommand_getCommand (if_pos rfl)
  have hdone : c.doneChunks = [0] := by
    have hperm := hcomplete.done
    rw [hfile.length_linesOf] at hperm
    exact List.perm_singleton.mp hperm
  have hright := hcomplete.check fun _ _ hl ↦ hfile.checkChunk_contentsOf hl
  rw [Client.chunks2file_eq hcomplete.empty hright, hdone, List.map_singleton] at hwritten
  have hrun := Machine.run_trans hstart hes
  have hmem : d ∈ s.downloads := hd ▸ List.mem_singleton_self d
  exact ⟨es, s, d, _, hrun, hmem, hwritten,
    written_excerpt_or_gutsCollision hfile.length_le hrun hmem fun l hl ↦ hlines ▸ hl⟩

end Downloader

end BitTorrent
