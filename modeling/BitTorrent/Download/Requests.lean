import BitTorrent.Download.Holders
import BitTorrent.Download.Sharing
import BitTorrent.Tracker.Announce

/-!
# Requests

A holder is on record only for a chunk whose hash text is that of a hash it announced, and
`look_at` asks holders only.  The text is then a lower-case one, from which the bytes of the
hash come back as they were announced.
-/

namespace BitTorrent.Client

variable {shahash : List UInt8 → List UInt8} {c₀ c c' : Client} {es : List DownloadEvent}
  {r : ChunkRef} {p : PeerRef}

/-! ## Who is on record -/

/-- An IHAVE packet with the hash has come from the peer. -/
def AnnouncedBy (es : List DownloadEvent) (hash : List UInt8) (p : PeerRef) : Prop :=
  ∃ pkt, DownloadEvent.ihave pkt (some p) ∈ es ∧ CarriesHash pkt hash

theorem AnnouncedBy.concat {hash : List UInt8} (h : AnnouncedBy es hash p) (e : DownloadEvent) :
    AnnouncedBy (es ++ [e]) hash p := by
  obtain ⟨pkt, hmem, hcarries⟩ := h
  exact ⟨pkt, List.mem_append_left _ hmem, hcarries⟩

theorem AnnouncedBy.length_eq {hash : List UInt8} (h : AnnouncedBy es hash p) :
    hash.length = sha1HashSize := by
  obtain ⟨pkt, -, hcarries⟩ := h
  exact hcarries.length_eq

/-- The holders of a chunk have announced it: a hash that has its text. -/
def Founded (es : List DownloadEvent) (c : Client) : Prop :=
  ∀ r p, some p ∈ (c.chunks r).holders →
    ∃ hash, AnnouncedBy es hash p ∧ (c.chunks r).hash = hash.flatMap byteHex

theorem founded_start (max : Int) (lines : List (Int × List UInt8)) :
    Founded [] (start max lines) := by
  intro r p hp
  rw [holders_start] at hp
  cases hp

/-- A step that leaves the holders and the hash texts as they are. -/
theorem Founded.of_frame (h : Founded es c) (e : DownloadEvent)
    (hholders : ∀ r, (c'.chunks r).holders = (c.chunks r).holders)
    (hsha1 : ∀ r, (c'.chunks r).sha1 = (c.chunks r).sha1) : Founded (es ++ [e]) c' := by
  intro r p hp
  rw [hholders] at hp
  obtain ⟨hash, hann, htext⟩ := h r p hp
  refine ⟨hash, hann.concat e, ?_⟩
  rw [← htext, ChunkT.hash, hsha1, ChunkT.hash]

/-- A new holder has announced the chunk just now. -/
theorem Founded.ihave (h : Founded es c) {pkt : Packet} {peer : Option PeerRef}
    (hproc : c.processIHAVE pkt peer = some c') : Founded (es ++ [.ihave pkt peer]) c' := by
  obtain ⟨iHave, hpkt, -⟩ := Option.map_eq_some_iff.mp hproc
  have hsha1 := (processIHAVE_frame hproc).1.sha1
  intro r p hp
  rw [holders_processIHAVE hpkt hproc] at hp
  rw [ChunkT.hash, hsha1, ← ChunkT.hash]
  rcases List.mem_append.mp hp with hold | hnew
  · obtain ⟨hash, hann, htext⟩ := h r p hold
    exact ⟨hash, hann.concat _, htext⟩
  · obtain ⟨hpos, rfl⟩ := List.mem_replicate.mp hnew
    obtain ⟨x, hx, hfound⟩ := List.countP_pos_iff.mp (Nat.pos_of_ne_zero hpos)
    obtain ⟨hash, hcarries, rfl⟩ := exists_carriesHash_of_pkt2chunks hpkt x hx
    obtain ⟨-, htext, -⟩ := containsChunk_eq_some (of_decide_eq_true hfound)
    refine ⟨hash, ⟨pkt, List.mem_append_right _ (List.mem_singleton_self _), hcarries⟩, ?_⟩
    rw [htext, hash_chunkOfHash_eq hcarries.length_eq]

/-- Whatever happens, the holders have announced their chunks. -/
theorem Founded.step (h : Founded es c) (hc : c₀.Consistent c) {e : DownloadEvent}
    (hstep : c.step shahash e = some c') : Founded (es ++ [e]) c' := by
  have hsha1 : ∀ r, (c'.chunks r).sha1 = (c.chunks r).sha1 := fun r ↦
    ((hc.step hstep).sha1 r).trans (hc.sha1 r).symm
  cases e with
  | lookAt =>
      cases hstep
      exact h.of_frame _ (holders_lookAt c) hsha1
  | ihave pkt peer => exact h.ihave hstep
  | data pkt peer =>
      obtain ⟨⟨c'', acks⟩, hproc, rfl⟩ := Option.map_eq_some_iff.mp hstep
      rcases processDATA_cases hc.pool hproc with rfl | ⟨p, rcvr, r', -, -, -, -, -, hframe, -⟩
      · exact h.of_frame _ (fun _ ↦ rfl) hsha1
      · exact h.of_frame _ hframe.holders hsha1

/-! ## What is asked for -/

/-- The peer picked is a holder. -/
theorem pickHolder_mem {pool : ReceiverPool} {peer : Option PeerRef} {holders : List (Option PeerRef)} :
    pickHolder pool peer holders ∈ peer :: holders := by
  induction holders generalizing peer with
  | nil => exact List.mem_singleton_self _
  | cons h holders ih =>
      rw [pickHolder]
      split
      · exact List.mem_cons_of_mem _ (List.mem_cons_self ..)
      · exact List.mem_cons_of_mem _ ih

theorem Attaches.mem_holders {down : ChunkRef} (h : c.Attaches down p) :
    some p ∈ (c.chunks down).holders := by
  have hmem : some p ∈ none :: (c.chunks down).holders := h.holder ▸ pickHolder_mem
  rcases List.mem_cons.mp hmem with heq | hmem
  · cases heq
  · exact hmem

/-- The chunk of a text of a hash is asked for by that hash. -/
theorem getPKT_eq {hash : List UInt8} (hlen : hash.length = sha1HashSize)
    (htext : (c.chunks r).hash = hash.flatMap byteHex) : c.getPKT r = makeGET hash := by
  have hfull : 2 * sha1HashSize ≤ (c.chunks r).sha1.length := by
    have hcount := congrArg List.length htext
    rw [ChunkT.hash, List.length_take, length_flatMap_byteHex, hlen] at hcount
    exact min_eq_left_iff.mp hcount
  have hhex : ∀ d ∈ (c.chunks r).sha1.take (2 * sha1HashSize), IsLowerHex d := by
    intro d hd
    rw [← ChunkT.hash, htext] at hd
    obtain ⟨b, -, hb⟩ := List.mem_flatMap.mp hd
    exact isLowerHex_byteHex b d hb
  have hback := flatMap_byteHex_hex2binary hfull hhex
  rw [← ChunkT.hash, htext] at hback
  rw [getPKT, take_hex2binary _ (by decide), flatMap_byteHex_inj hback]

/-- A line of the chunk file that is in the queue. -/
theorem exists_line {max : Int} {lines : List (Int × List UInt8)}
    (hc : (start max lines).Consistent c) (hr : r ∈ c.downChunks) :
    ∃ line ∈ lines, (c.chunks r).sha1 = line.2 := by
  have hmem := hc.queues.mem_iff.mp (List.mem_append_left c.doneChunks hr)
  rw [start, List.append_nil, List.mem_range] at hmem
  refine ⟨lines[r], List.getElem_mem hmem, ?_⟩
  rw [hc.sha1, chunks_start max hmem]
  rfl

/-- Whatever has happened, a GET that `look_at` sends asks for the hash of a requested chunk,
and it goes to a peer that has announced that hash and has no receiver, when there is room in
the pool. -/
theorem get_asks_announcer {max : Int} {lines : List (Int × List UInt8)} {pkt : Packet}
    (hrun : Machine.run (step shahash) (start max lines) es = some c)
    (hget : (p, pkt) ∈ c.lookAt.2) :
    ∃ hash, hash.length = sha1HashSize ∧ pkt = makeGET hash ∧ pkt.data = hash ∧
      (∃ line ∈ lines, line.2.take (2 * sha1HashSize) = hash.flatMap byteHex) ∧
      AnnouncedBy es hash p ∧ getReceiver c.receiverPool (some p) = none ∧
      c.receiverPool.curNum < c.receiverPool.maxNum := by
  have hinv : (start max lines).Consistent c ∧ Founded es c := by
    refine Machine.invariant_history
      (P := fun es c ↦ (start max lines).Consistent c ∧ Founded es c) ?_ hrun
      ⟨consistent_start max lines, founded_start max lines⟩
    rintro es c e c' ⟨hc, hfounded⟩ hstep
    exact ⟨hc.step hstep, hfounded.step hc hstep⟩
  obtain ⟨hc, hfounded⟩ := hinv
  by_cases hattaches : ∃ down q, c.Attaches down q
  · obtain ⟨down, q, hattaches⟩ := hattaches
    obtain ⟨pool', -, heq⟩ := hattaches.lookAt_eq
    rw [heq, List.mem_singleton, Prod.mk.injEq] at hget
    obtain ⟨rfl, rfl⟩ := hget
    obtain ⟨hash, hann, htext⟩ := hfounded down p hattaches.mem_holders
    obtain ⟨line, hline, hsha1⟩ := exists_line hc hattaches.mem.1
    have hpkt : c.scanned.getPKT down = makeGET hash := getPKT_eq hann.length_eq htext
    refine ⟨hash, hann.length_eq, hpkt, ?_, ⟨line, hline, ?_⟩, hann, hattaches.free,
      hattaches.room⟩
    · rw [hpkt]
      exact data_makePKT .get 0 (by decide) hann.length_eq
    · rw [← htext, ChunkT.hash, hsha1]
  · rw [lookAt_of_not_attaches fun down q h ↦ hattaches ⟨down, q, h⟩] at hget
    cases hget

/-- One announcement, and the GET that answers it. -/
theorem get_asks_announcer_one : ∃ c pkt,
    Machine.run (step firstBytes) (start 2 zeroLine) [.ihave zeroIHAVE (some 0)] = some c ∧
    (0, pkt) ∈ c.lookAt.2 ∧
    ∃ hash, hash.length = sha1HashSize ∧ pkt = makeGET hash ∧
      AnnouncedBy [.ihave zeroIHAVE (some 0)] hash 0 := by
  have hrun : Machine.run (step firstBytes) (start 2 zeroLine) [.ihave zeroIHAVE (some 0)] =
      some _ := rfl
  refine ⟨_, _, hrun, List.mem_singleton.mpr rfl, ?_⟩
  obtain ⟨hash, hlen, hpkt, -, -, hann, -⟩ := get_asks_announcer hrun (List.mem_singleton.mpr rfl)
  exact ⟨hash, hlen, hpkt, hann⟩

end BitTorrent.Client
