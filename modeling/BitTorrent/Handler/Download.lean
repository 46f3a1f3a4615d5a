import BitTorrent.RcvSend

/-!
# Handlers of a downloading peer

`process_IHAVE`, `process_DATA`, `look_at` and `chunks2file` of `handler.c`.

A handler has no value where the source reads outside the packet or writes
outside the chunk's buffer.  Before the first download the pool and the queues
are `NULL`, which every handler here treats like an empty pool and empty queues.
-/

namespace BitTorrent

/-- `memcpy` of `n` payload bytes into the buffer of a chunk.  A negative length
is a huge one once converted to `size_t`. -/
def ChunkData.memcpy (d : ChunkData) (off : Nat) (src : List UInt8) (n : Int) : Option ChunkData :=
  if h : 0 ≤ n ∧ n.toNat ≤ src.length ∧ off + n.toNat ≤ btChunkSize then
    some ⟨d.bytes.take off ++ src.take n.toNat ++ d.bytes.drop (off + n.toNat), by
      have := d.size_eq
      simp only [List.length_append, List.length_take, List.length_drop]
      omega⟩
  else none

/-- The bounds-checked copy is a copy into a fixed buffer. -/
theorem ChunkData.copyInto_of_memcpy {d d' : ChunkData} {off n : Nat} {src : List UInt8}
    (h : d.memcpy off src n = some d') :
    Bytes.copyInto d.bytes off (src.take n) = some d'.bytes := by
  unfold ChunkData.memcpy at h
  split at h
  · next hle =>
    cases h
    have hlen : (src.take n).length = n := List.length_take_of_le hle.2.1
    rw [Bytes.copyInto_of_le (by rw [hlen, d.size_eq]; exact hle.2.2), hlen]
    rfl
  · cases h

theorem ChunkData.memcpy_of_le (d : ChunkData) {off n : Nat} {src : List UInt8}
    (hn : n ≤ src.length) (hfit : off + n ≤ btChunkSize) : ∃ d', d.memcpy off src n = some d' := by
  rw [ChunkData.memcpy, dif_pos ⟨Int.natCast_nonneg n, hn, hfit⟩]
  exact ⟨_, rfl⟩

/-- The packet is the one the receiver waits for. -/
def Receiver.Expects (rcvr : Receiver) (pkt : Packet) : Prop :=
  pkt.header.seqNum.toNat = rcvr.nextExpected

instance (rcvr : Receiver) (pkt : Packet) : Decidable (rcvr.Expects pkt) :=
  inferInstanceAs (Decidable (_ = _))

/-- The receiver has every byte of its chunk. -/
def Receiver.Complete (rcvr : Receiver) : Prop := btChunkSize ≤ rcvr.lastRcvd * dataSize

instance (rcvr : Receiver) : Decidable rcvr.Complete := inferInstanceAs (Decidable (_ ≤ _))

/-- The number of payload bytes a header announces. -/
def PktHeader.payloadLen (header : PktHeader) : Int :=
  (header.totalPktLen.toNat : Int) - (header.headerLen.toNat : Int)

/-- `process_DATA` up to the acknowledgment: the payload of the expected packet
goes to its place in the buffer. -/
def Receiver.store (rcvr : Receiver) (data : ChunkData) (pkt : Packet) :
    Option (Receiver × ChunkData) :=
  if rcvr.Expects pkt then
    (data.memcpy (rcvr.lastRcvd * dataSize) pkt.data pkt.header.payloadLen).map fun data ↦
      ({ rcvr with lastRcvd := rcvr.nextExpected, nextExpected := rcvr.nextExpected + 1 }, data)
  else some (rcvr, data)

/-! ## The peer -/

/-- A downloading peer: its chunk records, `down_chunks`, `done_chunks` and
`receiver_pool`. -/
structure Client where
  chunks : ChunkStore
  downChunks : List ChunkRef
  doneChunks : List ChunkRef
  receiverPool : ReceiverPool

namespace Client

/-- `process_IHAVE` -/
def processIHAVE (c : Client) (pkt : Packet) (peer : Option PeerRef) : Option Client :=
  (pkt2chunks pkt .ihave).map fun iHave ↦
    { c with chunks := iHave.foldl (fun store h ↦ addHolder store c.downChunks h.hash peer) c.chunks }

/-- Replace the state of the receiver of `pSdr`. -/
def setReceiver (c : Client) (rcvr : Receiver) : Client :=
  { c with receiverPool :=
    { c.receiverPool with
      workers := c.receiverPool.workers.replaceF fun r ↦
        if r.pSender == rcvr.pSender then some rcvr else none } }

/-- Replace the buffer of a chunk. -/
def setData (c : Client) (chunk : ChunkRef) (data : ChunkData) : Client :=
  { c with chunks := Function.update c.chunks chunk { c.chunks chunk with data := data } }

/-- The end of `process_DATA`, once the whole chunk has arrived: the chunk is
checked and the connection closed. -/
def finishReceiver (shahash : List UInt8 → List UInt8) (c : Client) (rcvr : Receiver) : Client :=
  let chunk := c.chunks rcvr.chunk
  let new := if checkChunk shahash chunk.data chunk.sha1 then ChunkState.finished else .ready
  { c with
    chunks := updateState c.chunks c.downChunks rcvr.chunk new
    receiverPool := removeReceiver c.receiverPool rcvr }

/-- `process_DATA`, with the acknowledgment it sends. -/
def processDATA (shahash : List UInt8 → List UInt8) (c : Client) (pkt : Packet)
    (peer : Option PeerRef) : Option (Client × List Packet) :=
  match getReceiver c.receiverPool peer with
  | none => some (c, [])
  | some rcvr =>
      (rcvr.store (c.chunks rcvr.chunk).data pkt).map fun (rcvr, data) ↦
        let c := (c.setReceiver rcvr).setData rcvr.chunk data
        let ack := makeACK (UInt32.ofNat rcvr.lastRcvd)
        if rcvr.Complete then (c.finishReceiver shahash rcvr, [ack]) else (c, [ack])

/-- The loop of `look_at` over the holders: the first one without a connection,
or the last one if all are connected. -/
def pickHolder (pool : ReceiverPool) : Option PeerRef → List (Option PeerRef) → Option PeerRef
  | peer, [] => peer
  | _, h :: holders => if getReceiver pool h = none then h else pickHolder pool h holders

/-- `look_at` from the point where the chunk to fetch is chosen, with the GET it
sends and to whom. -/
def lookAtChunk (c : Client) (down : ChunkRef) : Client × List (PeerRef × Packet) :=
  let peer := pickHolder c.receiverPool none (c.chunks down).holders
  match getReceiver c.receiverPool peer, peer with
  | some _, _ | none, none => (c, [])
  | none, some p =>
      match addReceiver c.receiverPool p down with
      | none => (c, [])
      | some pool =>
          -- the buffer the hash is decoded into is longer here than the twenty bytes of the source
          let hash := (hex2binary (c.chunks down).sha1 trackerLineLen).take sha1HashSize
          ({ c with
              chunks := updateState c.chunks c.downChunks down .downloading
              receiverPool := pool },
            [(p, makeGET hash)])

/-- `look_at` -/
def lookAt (c : Client) : Client × List (PeerRef × Packet) :=
  let (down, done) := scanChunkDone c.chunks c.downChunks c.doneChunks
  let c := { c with downChunks := down, doneChunks := done }
  if c.receiverPool.maxNum ≤ c.receiverPool.curNum then (c, [])
  else
    match c.downChunks with
    | [] => (c, [])
    | first :: rest => c.lookAtChunk (chooseChunkToDownload c.chunks first (first :: rest))

/-- The argument of `fseek` for a chunk: a product of two `int`s. -/
def chunkOffset (id : Int) : Int := (id * btChunkSize).bmod (2 ^ 32)

/-- The loop of `chunks2file`: the records written, each at its offset.
It stops at the first record that fails the check. -/
def chunks2fileLoop (shahash : List UInt8 → List UInt8) (store : ChunkStore) :
    List ChunkRef → List (Int × ChunkData)
  | [] => []
  | r :: done =>
      if checkChunk shahash (store r).data (store r).sha1 then
        (chunkOffset (store r).id, (store r).data) :: chunks2fileLoop shahash store done
      else []

/-- `chunks2file`: what is written to the output file. -/
def chunks2file (shahash : List UInt8 → List UInt8) (c : Client) : List (Int × ChunkData) :=
  if c.downChunks ≠ [] ∨ c.doneChunks = [] then []
  else chunks2fileLoop shahash c.chunks c.doneChunks

end Client

end BitTorrent
