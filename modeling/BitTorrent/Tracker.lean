import Mathlib.Data.List.Basic
import Mathlib.Logic.Function.Basic
import BitTorrent.Library.Bytes
import BitTorrent.Chunk

/-!
# Chunk records and the packets made of them

The data model and the conversions of `tracker.c`: hash lists to WHOHAS and
IHAVE packets and back, and one chunk to its DATA packets.

Peers are referred to by pointer everywhere in the source, so a peer is its
position in `config.peers`; a `NULL` peer is `none`.  Chunk records are shared
between queues and receivers, so a queue of chunks holds references into a
store of records.
-/

namespace BitTorrent

/-- A pointer to an entry of `config.peers`. -/
abbrev PeerRef := Nat

/-- A pointer to a `chunk_t`. -/
abbrev ChunkRef := Nat

/-- `TRACKER_LINE_LEN`, which is also the size of the array `sha1` of `chunk_t`. -/
def trackerLineLen : Nat := 255

/-- `SHA_MAX_NUM`: how many hashes fit in one packet. -/
def shaMaxNum : Nat := (pktSize - hdrSize - 4) / sha1HashSize

theorem shaMaxNum_eq : shaMaxNum = 74 := rfl

/-- `chunk_state` -/
inductive ChunkState where
  | ready | downloading | finished
deriving DecidableEq, Repr

/-- The value of a `chunk_state` constant, by which states are compared. -/
def ChunkState.code : ChunkState → Nat
  | .ready => 0
  | .downloading => 1
  | .finished => 2

/-- `chunk_t` -/
structure ChunkT where
  id : Int
  sha1 : List UInt8
  cState : ChunkState
  holders : List (Option PeerRef)
  data : ChunkData

/-- The `2 * SHA1_HASH_SIZE` characters of a hash text that every comparison reads. -/
def ChunkT.hash (c : ChunkT) : List UInt8 := c.sha1.take (2 * sha1HashSize)

/-- A text stored in a zeroed array `sha1[255]`. -/
def sha1Array (text : List UInt8) : List UInt8 :=
  text ++ List.replicate (trackerLineLen - text.length) 0

/-- `init_chunk`, on a record whose bytes were cleared. -/
def initChunk (id : Int) (sha1 : List UInt8) : ChunkT where
  id := id
  sha1 := sha1
  cState := .ready
  holders := []
  data := .fill 0

@[simp] theorem sha1_initChunk (id : Int) (sha1 : List UInt8) : (initChunk id sha1).sha1 = sha1 := rfl

/-! ## Hash lists -/

/-- The hash list of one packet: the count in one byte, three bytes of padding,
then the hashes, in a buffer of `4 + SHA1_HASH_SIZE * sha1Num` cleared bytes. -/
def hashList (sha1Num : Nat) (cur : List ChunkT) : List UInt8 :=
  let written := [UInt8.ofNat sha1Num, 0, 0, 0] ++
    (cur.take sha1Num).flatMap fun c ↦ hex2binary c.sha1 (2 * sha1HashSize)
  written ++ List.replicate (4 + sha1HashSize * sha1Num - written.length) 0

/-- The loop of `chunks2pkts`: `k` packets are still to be built, and every one
but the last is full.  The last one takes what the division leaves over. -/
def chunks2pktsLoop (type : PktType) (n : Nat) : Nat → List ChunkT → List Packet
  | 0, _ => []
  | k + 1, cur =>
      let sha1Num := if 0 < k then shaMaxNum else n % shaMaxNum
      makePKT type 0 (4 + sha1HashSize * sha1Num) (hashList sha1Num cur) ::
        chunks2pktsLoop type n k (cur.drop sha1Num)

/-- `chunks2pkts`; `none` is the `NULL` returned for a type without hash list. -/
def chunks2pkts (chunks : List ChunkT) (type : PktType) : Option (List Packet) :=
  if type = .whohas ∨ type = .ihave then
    let n := chunks.length
    let num := n / shaMaxNum + if 0 < n % shaMaxNum then 1 else 0
    some (chunks2pktsLoop type n num chunks)
  else none

/-- The record `pkt2chunks` makes of twenty hash bytes. -/
def chunkOfHash (hash : List UInt8) : ChunkT :=
  initChunk 0 (sha1Array (binary2hex hash sha1HashSize))

/-- `pkt2chunks`.  The count is a signed `char`.  `none` stands for the `NULL`
returned for a type without hash list, and for a read past the payload. -/
def pkt2chunks (pkt : Packet) (type : PktType) : Option (List ChunkT) :=
  if type = .whohas ∨ type = .ihave then
    pkt.data.head?.bind fun sha1Num ↦
      (List.range sha1Num.toInt8.toInt.toNat).mapM fun i ↦
        (Bytes.slice pkt.data (4 + i * sha1HashSize) sha1HashSize).map chunkOfHash
  else none

/-! ## DATA packets -/

/-- `chunk2pkts`: the packets of a chunk and how many there are.  All but the
last carry `DATA_SIZE` bytes, the last one what the division leaves over. -/
def chunk2pkts (data : ChunkData) : List Packet × Nat :=
  let total := btChunkSize / dataSize + if 0 < btChunkSize % dataSize then 1 else 0
  let full := (List.range (total - 1)).map fun i ↦
    makeDATA (UInt32.ofNat (i + 1)) dataSize ((data.bytes.drop (i * dataSize)).take dataSize)
  let last := makeDATA (UInt32.ofNat (total - 1 + 1)) (btChunkSize % dataSize)
    ((data.bytes.drop ((total - 1) * dataSize)).take (btChunkSize % dataSize))
  (full ++ [last], total)

/-! ## Checking and comparing hashes -/

/-- `check_chunk`: the hex text of the data's hash is the given one.  The source
prints the text into an array too small for it; what is modelled is the text
itself. -/
def checkChunk (shahash : List UInt8 → List UInt8) (data : ChunkData) (sha1 : List UInt8) : Bool :=
  (binary2hex (shahash data.bytes) sha1HashSize).take (2 * sha1HashSize) ==
    sha1.take (2 * sha1HashSize)

/-- The records in memory. -/
abbrev ChunkStore := ChunkRef → ChunkT

/-- `contains_chunk`: the first record of the queue with the same hash text. -/
def containsChunk (store : ChunkStore) (queue : List ChunkRef) (hash : List UInt8) :
    Option ChunkRef :=
  queue.find? fun r ↦ hash == (store r).hash

/-- `which_i_have`: for each chunk asked for, the first record of the has-chunk file with
the same hash text.  `chunks` is what `list_chunks` makes of the file, `none` its
`NULL` for a file that cannot be opened. -/
def whichIHave (chunks : Option (List ChunkT)) (whoHas : List ChunkT) : List ChunkT :=
  whoHas.filterMap fun h ↦ chunks.bind fun cs ↦ cs.find? fun c ↦ h.hash == c.hash

/-- `update_state`: the record found by hash moves on to a later state. -/
def updateState (store : ChunkStore) (downChunks : List ChunkRef) (chunk : ChunkRef)
    (new : ChunkState) : ChunkStore :=
  match containsChunk store downChunks (store chunk).hash with
  | none => store
  | some r =>
      if (store r).cState.code < new.code ∧ new.code ≤ ChunkState.finished.code then
        Function.update store r { store r with cState := new }
      else store

/-- `add_holder` -/
def addHolder (store : ChunkStore) (downChunks : List ChunkRef) (hash : List UInt8)
    (holder : Option PeerRef) : ChunkStore :=
  match containsChunk store downChunks hash with
  | none => store
  | some r => Function.update store r { store r with holders := (store r).holders ++ [holder] }

/-- `choose_chunk_to_download`, on a queue with head `first`: a later record wins
if it has fewer holders, but at least one. -/
def chooseChunkToDownload (store : ChunkStore) (first : ChunkRef) (queue : List ChunkRef) :
    ChunkRef :=
  queue.foldl (fun best r ↦
    if (store r).holders.length < (store best).holders.length ∧ (store r).holders ≠ [] then r
    else best) first

/-- The loop of `scan_chunk_done`, run `n` times: each time one record leaves the
front of `down_chunks` and joins the end of one of the two queues. -/
def scanChunkDoneLoop (store : ChunkStore) :
    Nat → List ChunkRef → List ChunkRef → List ChunkRef × List ChunkRef
  | 0, down, done => (down, done)
  | _ + 1, [], done => ([], done)
  | n + 1, r :: down, done =>
      if (store r).cState = .finished then scanChunkDoneLoop store n down (done ++ [r])
      else scanChunkDoneLoop store n (down ++ [r]) done

/-- `scan_chunk_done` -/
def scanChunkDone (store : ChunkStore) (down done : List ChunkRef) :
    List ChunkRef × List ChunkRef :=
  scanChunkDoneLoop store down.length down done

end BitTorrent
