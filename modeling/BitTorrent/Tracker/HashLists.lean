import BitTorrent.Tracker

/-!
# Hash lists survive encoding, except at multiples of the packet size

`chunks2pkts` cuts a queue of `n` chunks into packets of `SHA_MAX_NUM` hashes
and a last packet holding `n % SHA_MAX_NUM`.  When the division leaves nothing
over, that last packet is built empty although `SHA_MAX_NUM` hashes are still
to be sent.  Decoding therefore gives the queue's hashes back exactly when the
queue is empty or its length is no multiple of `SHA_MAX_NUM`.
-/

namespace BitTorrent

/-- The text of the record starts with forty lower-case hex digits. -/
def ChunkT.HexText (c : ChunkT) : Prop :=
  2 * sha1HashSize ≤ c.sha1.length ∧ ∀ d ∈ c.hash, IsLowerHex d

/-- The hashes in a sequence of packets, decoded one after the other. -/
def decodeHashes (pkts : List Packet) (type : PktType) : Option (List (List UInt8)) :=
  (pkts.mapM fun p ↦ pkt2chunks p type).map fun cs ↦ cs.flatten.map ChunkT.hash

/-- A packet carries between one and `SHA_MAX_NUM` hashes and is no longer than
`PKT_SIZE`, as its header says. -/
structure WellFilled (type : PktType) (p : Packet) : Prop where
  count : ∃ cs, pkt2chunks p type = some cs ∧ 1 ≤ cs.length ∧ cs.length ≤ shaMaxNum
  total : p.header.totalPktLen.toNat = hdrSize + p.data.length
  size : hdrSize + p.data.length ≤ pktSize

/-- Encoding the queue and decoding the packets gives its hashes back, in well
filled packets. -/
def RoundTrips (type : PktType) (queue : List ChunkT) : Prop :=
  ∃ pkts, chunks2pkts queue type = some pkts ∧
    decodeHashes pkts type = some (queue.map ChunkT.hash) ∧ ∀ p ∈ pkts, WellFilled type p

/-! ## One packet -/

theorem length_hashBytes (c : ChunkT) :
    (hex2binary c.sha1 (2 * sha1HashSize)).length = sha1HashSize :=
  length_hex2binary c.sha1 sha1HashSize

/-- The twenty bytes of a hash text decode to the same text. -/
theorem hash_chunkOfHash {c : ChunkT} (hc : c.HexText) :
    (chunkOfHash (hex2binary c.sha1 (2 * sha1HashSize))).hash = c.hash := by
  have hle : sha1HashSize ≤ (hex2binary c.sha1 (2 * sha1HashSize)).length :=
    Nat.le_of_eq (length_hashBytes c).symm
  rw [ChunkT.hash, chunkOfHash, sha1_initChunk, sha1Array, take_binary2hex hle,
    List.take_of_length_le (Nat.le_of_eq (length_hashBytes c)),
    flatMap_byteHex_hex2binary hc.1 hc.2]
  rfl

section Packet

variable {type : PktType} {m : Nat} {cur : List ChunkT}

/-- With enough records left, a hash list is its count and the hashes. -/
theorem hashList_eq (h : m ≤ cur.length) :
    hashList m cur = [UInt8.ofNat m, 0, 0, 0] ++
      (cur.take m).flatMap fun c ↦ hex2binary c.sha1 (2 * sha1HashSize) := by
  have hflat : ((cur.take m).flatMap fun c ↦ hex2binary c.sha1 (2 * sha1HashSize)).length =
      sha1HashSize * m := by
    rw [List.length_flatMap, List.map_congr_left fun c _ ↦ length_hashBytes c, List.map_const',
      List.sum_replicate_nat, List.length_take_of_le h, Nat.mul_comm]
  simp only [hashList]
  rw [List.length_append, hflat, List.length_cons, List.length_cons, List.length_cons,
    List.length_cons, List.length_nil, Nat.sub_self, List.replicate_zero, List.append_nil]

/-- A hash list fills its buffer, whatever the queue holds. -/
theorem length_hashList (m : Nat) (cur : List ChunkT) :
    (hashList m cur).length = 4 + sha1HashSize * m := by
  have hflat : ((cur.take m).flatMap fun c ↦ hex2binary c.sha1 (2 * sha1HashSize)).length =
      sha1HashSize * (cur.take m).length := by
    rw [List.length_flatMap, List.map_congr_left fun c _ ↦ length_hashBytes c, List.map_const',
      List.sum_replicate_nat, Nat.mul_comm]
  have hle : sha1HashSize * (cur.take m).length ≤ sha1HashSize * m :=
    Nat.mul_le_mul_left _ (List.length_take_le m cur)
  simp only [hashList, List.length_append, List.length_replicate, hflat, List.length_cons,
    List.length_nil]
  omega

/-- A packet's payload is the hash list it was made of. -/
theorem data_hashPacket (hm : m ≤ shaMaxNum) :
    (makePKT type 0 (4 + sha1HashSize * m) (hashList m cur)).data = hashList m cur := by
  refine data_makePKT type 0 ?_ (length_hashList m cur)
  rw [shaMaxNum_eq] at hm
  simp only [hdrSize, sha1HashSize]
  omega

/-- Decoding one packet gives the records the hashes stand for. -/
theorem pkt2chunks_hashPacket (ht : type = .whohas ∨ type = .ihave) (hm : m ≤ shaMaxNum)
    (h : m ≤ cur.length) :
    pkt2chunks (makePKT type 0 (4 + sha1HashSize * m) (hashList m cur)) type =
      some ((cur.take m).map fun c ↦ chunkOfHash (hex2binary c.sha1 (2 * sha1HashSize))) := by
  have hcount : ∀ k < 75, (UInt8.ofNat k).toInt8.toInt.toNat = k := by decide
  rw [pkt2chunks, if_pos ht, data_hashPacket hm, hashList_eq h]
  change (List.range (UInt8.ofNat m).toInt8.toInt.toNat).mapM _ = _
  rw [hcount m (by rw [shaMaxNum_eq] at hm; omega)]
  refine Bytes.mapM_range (by rw [List.length_map, List.length_take_of_le h]) fun i hi ↦ ?_
  have hi' : i < (cur.take m).length := by rwa [List.length_map] at hi
  have hslice := Bytes.slice_flatMap (f := fun c : ChunkT ↦ hex2binary c.sha1 (2 * sha1HashSize))
    (fun c _ ↦ length_hashBytes c) [UInt8.ofNat m, 0, 0, 0] [] hi'
  rw [List.append_nil] at hslice
  rw [List.getElem_map]
  exact congrArg (Option.map chunkOfHash) hslice

theorem size_hashPacket (hm : m ≤ shaMaxNum) :
    hdrSize + (makePKT type 0 (4 + sha1HashSize * m) (hashList m cur)).data.length ≤ pktSize := by
  rw [data_hashPacket hm, length_hashList m cur]
  rw [shaMaxNum_eq] at hm
  simp only [hdrSize, sha1HashSize, pktSize]
  omega

/-- A packet with at least one hash is well filled. -/
theorem wellFilled_hashPacket (ht : type = .whohas ∨ type = .ihave) (h1 : 1 ≤ m)
    (hm : m ≤ shaMaxNum) (h : m ≤ cur.length) :
    WellFilled type (makePKT type 0 (4 + sha1HashSize * m) (hashList m cur)) where
  count := ⟨_, pkt2chunks_hashPacket ht hm h, by
    rw [List.length_map, List.length_take_of_le h]
    exact ⟨h1, hm⟩⟩
  total := by
    rw [data_hashPacket hm, length_hashList m cur]
    refine totalPktLen_makePKT type 0 _ ?_
    rw [shaMaxNum_eq] at hm
    simp only [hdrSize, sha1HashSize]
    omega
  size := size_hashPacket hm

end Packet

/-! ## The loop -/

section Loop

variable {type : PktType} {n : Nat}

theorem mod_shaMaxNum_lt : n % shaMaxNum < shaMaxNum := Nat.mod_lt n (by rw [shaMaxNum_eq]; decide)

/-- Decoding the last `k + 1` packets gives `k` full packets of hashes and the
remainder of the division, whatever is still in the queue. -/
theorem decode_chunks2pktsLoop (ht : type = .whohas ∨ type = .ihave) (k : Nat)
    {cur : List ChunkT} (h : shaMaxNum * k + n % shaMaxNum ≤ cur.length) :
    ((chunks2pktsLoop type n (k + 1) cur).mapM fun p ↦ pkt2chunks p type).map List.flatten =
      some ((cur.take (shaMaxNum * k + n % shaMaxNum)).map
        fun c ↦ chunkOfHash (hex2binary c.sha1 (2 * sha1HashSize))) := by
  induction k generalizing cur with
  | zero =>
      rw [Nat.mul_zero, Nat.zero_add] at h ⊢
      simp only [chunks2pktsLoop, Nat.lt_irrefl, ↓reduceIte, List.mapM_cons, List.mapM_nil]
      rw [pkt2chunks_hashPacket ht (Nat.le_of_lt mod_shaMaxNum_lt) h]
      simp
  | succ k ih =>
      rw [Nat.mul_succ] at h
      have hrest : shaMaxNum * k + n % shaMaxNum ≤ (cur.drop shaMaxNum).length := by
        rw [List.length_drop]
        omega
      have hih := ih hrest
      rw [chunks2pktsLoop]
      simp only [Nat.succ_pos, ↓reduceIte, List.mapM_cons]
      rw [pkt2chunks_hashPacket ht (Nat.le_refl _) (by omega)]
      rw [Option.map_eq_some_iff] at hih
      obtain ⟨cs, hcs, hflat⟩ := hih
      rw [hcs]
      simp only [Option.pure_def, Option.bind_eq_bind, Option.bind_some, Option.map_some,
        List.flatten_cons, hflat]
      rw [← List.map_append, ← List.take_add, Nat.mul_succ]
      congr 3
      omega

/-- Every packet of the loop is well filled when the remainder is not zero. -/
theorem wellFilled_chunks2pktsLoop (ht : type = .whohas ∨ type = .ihave)
    (hr : 0 < n % shaMaxNum) (k : Nat) {cur : List ChunkT}
    (h : shaMaxNum * k + n % shaMaxNum ≤ cur.length) :
    ∀ p ∈ chunks2pktsLoop type n (k + 1) cur, WellFilled type p := by
  induction k generalizing cur with
  | zero =>
      intro p hp
      rw [Nat.mul_zero, Nat.zero_add] at h
      simp only [chunks2pktsLoop, Nat.lt_irrefl, ↓reduceIte, List.mem_singleton] at hp
      subst hp
      exact wellFilled_hashPacket ht hr (Nat.le_of_lt mod_shaMaxNum_lt) h
  | succ k ih =>
      intro p hp
      rw [Nat.mul_succ] at h
      rw [chunks2pktsLoop] at hp
      simp only [Nat.succ_pos, ↓reduceIte, List.mem_cons] at hp
      rcases hp with rfl | hp
      · exact wellFilled_hashPacket ht (by rw [shaMaxNum_eq]; decide) (Nat.le_refl _) (by omega)
      · refine ih ?_ p hp
        rw [List.length_drop]
        omega

end Loop

/-! ## Queues -/

section Queue

variable {type : PktType} {queue : List ChunkT}

theorem map_hash_chunkOfHash (hq : ∀ c ∈ queue, c.HexText) (m : Nat) :
    (((queue.take m).map fun c ↦ chunkOfHash (hex2binary c.sha1 (2 * sha1HashSize))).map
      ChunkT.hash) = (queue.take m).map ChunkT.hash := by
  rw [List.map_map]
  exact List.map_congr_left fun c hc ↦ hash_chunkOfHash (hq c (List.mem_of_mem_take hc))

/-- The number of packets `chunks2pkts` builds, counted from the last one. -/
theorem chunks2pkts_eq (ht : type = .whohas ∨ type = .ihave) {k : Nat}
    (hk : queue.length / shaMaxNum + (if 0 < queue.length % shaMaxNum then 1 else 0) = k) :
    chunks2pkts queue type = some (chunks2pktsLoop type queue.length k queue) := by
  rw [chunks2pkts, if_pos ht, ← hk]

/-- What decoding gives for a nonempty queue: the hashes of all full packets but
the last, and the remainder of the division. -/
theorem decodeHashes_loop (ht : type = .whohas ∨ type = .ihave) (hq : ∀ c ∈ queue, c.HexText)
    (k : Nat) (h : shaMaxNum * k + queue.length % shaMaxNum ≤ queue.length) :
    decodeHashes (chunks2pktsLoop type queue.length (k + 1) queue) type =
      some ((queue.take (shaMaxNum * k + queue.length % shaMaxNum)).map ChunkT.hash) := by
  have hdec := decode_chunks2pktsLoop ht k h
  rw [Option.map_eq_some_iff] at hdec
  obtain ⟨cs, hcs, hflat⟩ := hdec
  rw [decodeHashes, hcs, Option.map_some, hflat, map_hash_chunkOfHash hq]

/-- With a remainder, or with nothing to send, no hash is lost. -/
theorem roundTrips_of_mod_ne_zero (ht : type = .whohas ∨ type = .ihave)
    (hq : ∀ c ∈ queue, c.HexText) (h : queue = [] ∨ queue.length % shaMaxNum ≠ 0) :
    RoundTrips type queue := by
  rcases h with rfl | hr
  · exact ⟨[], chunks2pkts_eq ht rfl, rfl, by simp⟩
  · have hpos : 0 < queue.length % shaMaxNum := Nat.pos_of_ne_zero hr
    have hlen : shaMaxNum * (queue.length / shaMaxNum) + queue.length % shaMaxNum = queue.length :=
      Nat.div_add_mod ..
    refine ⟨_, chunks2pkts_eq ht (if_pos hpos ▸ rfl), ?_,
      wellFilled_chunks2pktsLoop ht hpos _ (Nat.le_of_eq hlen)⟩
    rw [decodeHashes_loop ht hq _ (Nat.le_of_eq hlen), hlen, List.take_length]

/-- At a multiple of `SHA_MAX_NUM` the last packet is built empty and the last
`SHA_MAX_NUM` hashes are lost. -/
theorem not_roundTrips_of_mod_eq_zero (ht : type = .whohas ∨ type = .ihave)
    (hq : ∀ c ∈ queue, c.HexText) (hne : queue ≠ []) (hr : queue.length % shaMaxNum = 0) :
    ¬ RoundTrips type queue := by
  rintro ⟨pkts, hpkts, hdec, -⟩
  have hlen : shaMaxNum * (queue.length / shaMaxNum) + queue.length % shaMaxNum = queue.length :=
    Nat.div_add_mod ..
  have hpos : 0 < queue.length := List.length_pos_iff.mpr hne
  obtain ⟨k, hk⟩ : ∃ k, queue.length / shaMaxNum = k + 1 :=
    Nat.exists_eq_succ_of_ne_zero fun h0 ↦ by
      rw [h0, hr] at hlen
      omega
  have hnum : queue.length / shaMaxNum + (if 0 < queue.length % shaMaxNum then 1 else 0) = k + 1 := by
    rw [hk, hr]
    rfl
  rw [chunks2pkts_eq ht hnum, Option.some.injEq] at hpkts
  subst hpkts
  rw [hk, hr, Nat.mul_succ] at hlen
  rw [decodeHashes_loop ht hq k (by omega), Option.some.injEq] at hdec
  have hcount := congrArg List.length hdec
  simp only [List.length_map, List.length_take] at hcount
  rw [shaMaxNum_eq] at hcount hlen
  omega

/-- Decoding gives the hashes of the queue back, in well filled packets, exactly
when the queue is empty or its length is no multiple of `SHA_MAX_NUM`. -/
theorem roundTrips_iff (ht : type = .whohas ∨ type = .ihave) (hq : ∀ c ∈ queue, c.HexText) :
    RoundTrips type queue ↔ queue = [] ∨ queue.length % shaMaxNum ≠ 0 := by
  constructor
  · intro h
    by_contra hcon
    rw [not_or, not_not] at hcon
    exact not_roundTrips_of_mod_eq_zero ht hq hcon.1 hcon.2 h
  · exact roundTrips_of_mod_ne_zero ht hq

end Queue

/-! ## Two queues -/

/-- A record whose hash text is forty zeros. -/
def zeroHashChunk (id : Int) : ChunkT := initChunk id (sha1Array (List.replicate 40 48))

theorem hexText_zeroHashChunk (id : Int) : (zeroHashChunk id).HexText := by
  refine ⟨by simp [zeroHashChunk, initChunk, sha1Array, sha1HashSize], fun d hd ↦ ⟨0, by decide, ?_⟩⟩
  have h : (zeroHashChunk id).hash = List.replicate 40 48 := rfl
  rw [h] at hd
  exact List.eq_of_mem_replicate hd

/-- Two hashes, as the checkpoint tests request them, make the round trip. -/
theorem roundTrips_iff_two :
    RoundTrips .whohas [zeroHashChunk 0, zeroHashChunk 1] ↔
      [zeroHashChunk 0, zeroHashChunk 1] = [] ∨
        [zeroHashChunk 0, zeroHashChunk 1].length % shaMaxNum ≠ 0 :=
  roundTrips_iff (.inl rfl) fun c hc ↦ by
    simp only [List.mem_cons, List.not_mem_nil, or_false] at hc
    rcases hc with rfl | rfl <;> exact hexText_zeroHashChunk _

/-- Seventy-four hashes do not. -/
theorem not_roundTrips_full_packet :
    ¬ ∀ (type : PktType) (queue : List ChunkT), type = .whohas ∨ type = .ihave →
      (∀ c ∈ queue, c.HexText) → RoundTrips type queue := by
  intro h
  have hhex : ∀ c ∈ List.replicate shaMaxNum (zeroHashChunk 0), c.HexText := fun c hc ↦ by
    rw [List.eq_of_mem_replicate hc]
    exact hexText_zeroHashChunk 0
  refine not_roundTrips_of_mod_eq_zero (.inl rfl) hhex ?_ ?_ (h .whohas _ (.inl rfl) hhex)
  · rw [shaMaxNum_eq]
    exact List.cons_ne_nil _ _
  · rw [List.length_replicate, Nat.mod_self]

end BitTorrent
