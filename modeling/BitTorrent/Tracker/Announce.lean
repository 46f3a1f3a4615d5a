import BitTorrent.Handler.Upload
import BitTorrent.Tracker.Files
import BitTorrent.Tracker.HashLists

/-!
# What a peer announces and what it serves

`process_WHOHAS` answers with the hashes of its has-chunk file that were asked for, in one
packet.  `process_GET` looks for the same hash in the master chunk file, comes to the last
line if it is not there, and sends what it has then found.
-/

namespace BitTorrent

/-- The hash text is that of one of the chunks. -/
def Lists (chunks : Option (List ChunkT)) (hash : List UInt8) : Bool :=
  chunks.any fun cs ↦ cs.any fun c ↦ hash == c.hash

/-- The hashes asked for that are listed, in the order they were asked for. -/
def found (chunks : Option (List ChunkT)) (whoHas : List ChunkT) : List (List UInt8) :=
  (whoHas.map ChunkT.hash).filter (Lists chunks)

/-- Nothing is sent if nothing asked for is listed, and otherwise one IHAVE packet with the
hashes that are. -/
def AnswersRight (chunks : Option (List ChunkT)) (pkt : Packet) (p : PeerRef) : Prop :=
  ∃ whoHas sent, pkt2chunks pkt .whohas = some whoHas ∧
    Server.processWHOHAS chunks pkt (some p) = some sent ∧
    if found chunks whoHas = [] then sent = []
    else ∃ iHavePkt iHave, sent = [(p, iHavePkt)] ∧ pkt2chunks iHavePkt .ihave = some iHave ∧
      iHave.map ChunkT.hash = found chunks whoHas

/-! ## Requests -/

section Requests

variable {type : PktType} {pkt : Packet} {hash : List UInt8} {whoHas : List ChunkT}
  {chunks : Option (List ChunkT)}

theorem isLowerHex_byteHex (b : UInt8) : ∀ d ∈ byteHex b, IsLowerHex d := by
  intro d hd
  rcases List.mem_pair.mp hd with rfl | rfl
  · exact ⟨b.toNat / 16, Nat.div_lt_of_lt_mul b.toNat_lt, rfl⟩
  · exact ⟨b.toNat % 16, Nat.mod_lt _ (by decide), rfl⟩

theorem hash_chunkOfHash_eq (h : hash.length = sha1HashSize) :
    (chunkOfHash hash).hash = hash.flatMap byteHex := by
  rw [ChunkT.hash, chunkOfHash, sha1_initChunk, sha1Array, take_binary2hex (Nat.le_of_eq h.symm),
    List.take_of_length_le (Nat.le_of_eq h)]

/-- A hash that was decoded has a hex text. -/
theorem hexText_chunkOfHash (h : hash.length = sha1HashSize) : (chunkOfHash hash).HexText := by
  have hhash := hash_chunkOfHash_eq h
  constructor
  · have hlen := congrArg List.length hhash
    rw [ChunkT.hash, List.length_take, length_flatMap_byteHex, h] at hlen
    exact min_eq_left_iff.mp hlen
  · intro d hd
    rw [hhash] at hd
    obtain ⟨b, -, hb⟩ := List.mem_flatMap.mp hd
    exact isLowerHex_byteHex b d hb

/-- The packet has the hash in its hash list. -/
def CarriesHash (pkt : Packet) (hash : List UInt8) : Prop :=
  ∃ sha1Num ∈ pkt.data.head?, ∃ i < sha1Num.toInt8.toInt.toNat,
    Bytes.slice pkt.data (4 + i * sha1HashSize) sha1HashSize = some hash

theorem CarriesHash.length_eq (h : CarriesHash pkt hash) : hash.length = sha1HashSize := by
  obtain ⟨num, -, i, -, hslice⟩ := h
  exact Bytes.length_of_slice hslice

/-- Every record made of a packet is that of a hash it carries. -/
theorem exists_carriesHash_of_pkt2chunks (h : pkt2chunks pkt type = some whoHas) :
    ∀ c ∈ whoHas, ∃ hash, CarriesHash pkt hash ∧ c = chunkOfHash hash := by
  intro c hc
  rw [pkt2chunks, Option.ite_none_right_eq_some] at h
  obtain ⟨num, hnum, h⟩ := Option.bind_eq_some_iff.mp h.2
  obtain ⟨i, hi, hrecord⟩ := Bytes.exists_of_mem_mapM h hc
  obtain ⟨hash, hslice, rfl⟩ := Option.map_eq_some_iff.mp hrecord
  exact ⟨hash, ⟨num, hnum, i, List.mem_range.mp hi, hslice⟩, rfl⟩

theorem hexText_of_pkt2chunks (h : pkt2chunks pkt type = some whoHas) : ∀ c ∈ whoHas, c.HexText := by
  intro c hc
  obtain ⟨hash, hcarries, rfl⟩ := exists_carriesHash_of_pkt2chunks h c hc
  exact hexText_chunkOfHash hcarries.length_eq

/-- What is found has the hash asked for. -/
theorem map_hash_whichIHave (chunks : Option (List ChunkT)) (whoHas : List ChunkT) :
    (whichIHave chunks whoHas).map ChunkT.hash = found chunks whoHas := by
  rw [found]
  induction whoHas with
  | nil => rfl
  | cons h whoHas ih =>
      rw [List.map_cons, whichIHave, List.filterMap_cons]
      cases chunks with
      | none => exact ih
      | some cs =>
          rw [Option.bind_some]
          cases hfind : cs.find? fun c ↦ h.hash == c.hash with
          | none =>
              have hnot : ¬ Lists (some cs) h.hash = true := by
                rw [Lists, Option.any_some, List.any_eq_true]
                rintro ⟨c, hc, heq⟩
                exact List.find?_eq_none.mp hfind c hc heq
              rw [List.filter_cons_of_neg hnot]
              exact ih
          | some c =>
              have hsame := List.find?_some hfind
              have heq : h.hash = c.hash := eq_of_beq hsame
              have hlists : Lists (some cs) h.hash = true := by
                rw [Lists, Option.any_some, List.any_eq_true]
                exact ⟨c, List.mem_of_find?_eq_some hfind, hsame⟩
              rw [List.filter_cons_of_pos hlists, List.map_cons, heq]
              exact congrArg _ ih

theorem hexText_whichIHave (h : ∀ c ∈ whoHas, c.HexText) (chunks : Option (List ChunkT)) :
    ∀ c ∈ whichIHave chunks whoHas, c.HexText := by
  intro c hc
  obtain ⟨x, hx, hbind⟩ := List.mem_filterMap.mp hc
  obtain ⟨cs, -, hfind⟩ := Option.bind_eq_some_iff.mp hbind
  have hfound := List.find?_some hfind
  have heq : x.hash = c.hash := eq_of_beq hfound
  obtain ⟨hlen, hhex⟩ := h x hx
  refine ⟨?_, fun d hd ↦ hhex d (heq ▸ hd)⟩
  have hsame := congrArg List.length heq
  rw [ChunkT.hash, ChunkT.hash, List.length_take_of_le hlen, List.length_take] at hsame
  exact min_eq_left_iff.mp hsame.symm

end Requests

/-! ## Replies -/

section Replies

variable {pkt : Packet} {whoHas : List ChunkT} {chunks : Option (List ChunkT)} {queue : List ChunkT}
  {pkts : List Packet}

/-- How many hashes the first packet of a hash list carries. -/
def firstNum (n : Nat) : Nat := if shaMaxNum < n then shaMaxNum else n % shaMaxNum

theorem firstNum_le (n : Nat) : firstNum n ≤ shaMaxNum := by
  rw [firstNum]
  split
  · exact Nat.le_refl _
  · exact Nat.le_of_lt mod_shaMaxNum_lt

theorem firstNum_le_self (n : Nat) : firstNum n ≤ n := by
  rw [firstNum]
  split
  · next hlt => exact Nat.le_of_lt hlt
  · exact Nat.mod_le _ _

/-- They are all of them exactly if there are fewer than `SHA_MAX_NUM`. -/
theorem firstNum_eq_iff {n : Nat} : firstNum n = n ↔ n < shaMaxNum := by
  rw [firstNum]
  split
  · next hlt => exact ⟨fun h ↦ absurd h (Nat.ne_of_lt hlt), fun h ↦ absurd hlt (Nat.lt_asymm h)⟩
  · refine ⟨fun h ↦ ?_, Nat.mod_eq_of_lt⟩
    rw [← h]
    exact mod_shaMaxNum_lt

/-- The first packet of a hash list. -/
theorem chunks2pkts_first (hne : queue ≠ []) {type : PktType} (ht : type = .whohas ∨ type = .ihave) :
    ∃ first rest, chunks2pkts queue type = some (first :: rest) ∧ pkt2chunks first type =
      some ((queue.take (firstNum queue.length)).map
        fun c ↦ chunkOfHash (hex2binary c.sha1 (2 * sha1HashSize))) := by
  have hlen : 0 < queue.length := List.length_pos_iff.mpr hne
  have hnum : ∃ k, queue.length / shaMaxNum + (if 0 < queue.length % shaMaxNum then 1 else 0) = k + 1 ∧
      (0 < k ↔ shaMaxNum < queue.length) := by
    refine ⟨queue.length / shaMaxNum + (if 0 < queue.length % shaMaxNum then 1 else 0) - 1, ?_, ?_⟩
    all_goals
      rw [shaMaxNum_eq]
      split
      all_goals omega
  obtain ⟨k, hk, hiff⟩ := hnum
  have hfirst : (if 0 < k then shaMaxNum else queue.length % shaMaxNum) = firstNum queue.length := by
    simp only [firstNum, hiff]
  rw [chunks2pkts_eq ht hk, chunks2pktsLoop, hfirst]
  exact ⟨_, _, rfl, pkt2chunks_hashPacket ht (firstNum_le _) (firstNum_le_self _)⟩

/-- The reply is right exactly if fewer than `SHA_MAX_NUM` of the hashes are found. -/
theorem answersRight_iff_lt (hwho : pkt2chunks pkt .whohas = some whoHas)
    (chunks : Option (List ChunkT)) (p : PeerRef) :
    AnswersRight chunks pkt p ↔ (found chunks whoHas).length < shaMaxNum := by
  have hfound := map_hash_whichIHave chunks whoHas
  have hlen : (whichIHave chunks whoHas).length = (found chunks whoHas).length := by
    rw [← hfound, List.length_map]
  by_cases hempty : whichIHave chunks whoHas = []
  · have hnone : found chunks whoHas = [] := by rw [← hfound, hempty, List.map_nil]
    rw [hnone]
    refine iff_of_true ⟨whoHas, [], hwho, ?_, ?_⟩ (by decide)
    · rw [Server.processWHOHAS, hwho, Option.map_some]
      simp only [hempty, List.isEmpty_nil, if_true]
    · rw [hnone, if_pos rfl]
  · have hsome : found chunks whoHas ≠ [] := by
      rw [← hfound]
      exact fun h ↦ hempty (List.map_eq_nil_iff.mp h)
    have hhex := hexText_whichIHave (hexText_of_pkt2chunks hwho) chunks
    obtain ⟨first, rest, hpkts, hdecode⟩ := chunks2pkts_first hempty (.inr rfl)
    have hsent : Server.processWHOHAS chunks pkt (some p) = some [(p, first)] := by
      rw [Server.processWHOHAS, hwho, Option.map_some]
      simp only [List.isEmpty_iff, if_neg hempty, hpkts]
      rfl
    rw [← hlen, ← firstNum_eq_iff]
    constructor
    · rintro ⟨whoHas', sent, hwho', hsent', hanswer⟩
      rw [hwho, Option.some.injEq] at hwho'
      subst hwho'
      rw [hsent, Option.some.injEq] at hsent'
      subst hsent'
      rw [if_neg hsome] at hanswer
      obtain ⟨_, iHave, hpkt, hdecode', hhashes⟩ := hanswer
      cases hpkt
      rw [hdecode, Option.some.injEq] at hdecode'
      subst hdecode'
      have hcount := congrArg List.length hhashes
      rw [List.length_map, List.length_map, List.length_take_of_le (firstNum_le_self _)] at hcount
      rw [hcount, hlen]
    · intro hall
      refine ⟨whoHas, _, hwho, hsent, ?_⟩
      rw [if_neg hsome]
      refine ⟨_, _, rfl, hdecode, ?_⟩
      rw [map_hash_chunkOfHash hhex, hall, List.take_length, hfound]

/-- A packet of a WHOHAS request can be decoded, and lists at most `SHA_MAX_NUM` hashes. -/
theorem exists_pkt2chunks (hpkts : chunks2pkts queue .whohas = some pkts) (hmem : pkt ∈ pkts) :
    ∃ whoHas, pkt2chunks pkt .whohas = some whoHas ∧ whoHas.length ≤ shaMaxNum := by
  have hloop : ∀ (k : Nat) (cur : List ChunkT),
      shaMaxNum * k + queue.length % shaMaxNum ≤ cur.length →
      pkt ∈ chunks2pktsLoop .whohas queue.length (k + 1) cur →
      ∃ m cur', pkt = makePKT .whohas 0 (4 + sha1HashSize * m) (hashList m cur') ∧ m ≤ shaMaxNum ∧
        m ≤ cur'.length := by
    intro k
    induction k with
    | zero =>
        intro cur hle hmem
        rw [Nat.mul_zero, Nat.zero_add] at hle
        rw [chunks2pktsLoop, chunks2pktsLoop, List.mem_singleton, if_neg (Nat.lt_irrefl 0)] at hmem
        exact ⟨_, cur, hmem, Nat.le_of_lt mod_shaMaxNum_lt, hle⟩
    | succ k ih =>
        intro cur hle hmem
        rw [Nat.mul_succ] at hle
        rw [chunks2pktsLoop, if_pos (Nat.succ_pos k)] at hmem
        rcases List.mem_cons.mp hmem with heq | hmem
        · exact ⟨shaMaxNum, cur, heq, Nat.le_refl _, by omega⟩
        · refine ih (cur.drop shaMaxNum) ?_ hmem
          rw [List.length_drop]
          omega
  rw [chunks2pkts, if_pos (.inl rfl), Option.some.injEq] at hpkts
  subst hpkts
  obtain ⟨k, hk⟩ : ∃ k, queue.length / shaMaxNum +
      (if 0 < queue.length % shaMaxNum then 1 else 0) = k + 1 := by
    apply Nat.exists_eq_succ_of_ne_zero
    intro hzero
    rw [hzero] at hmem
    cases hmem
  have hle : shaMaxNum * k + queue.length % shaMaxNum ≤ queue.length := by
    rw [shaMaxNum_eq] at hk ⊢
    split at hk
    all_goals omega
  rw [hk] at hmem
  obtain ⟨m, cur', rfl, hm, hcur⟩ := hloop k queue hle hmem
  refine ⟨_, pkt2chunks_hashPacket (.inl rfl) hm hcur, ?_⟩
  rw [List.length_map, List.length_take_of_le hcur]
  exact hm

/-- Any packet of a WHOHAS request, answered from any has-chunk file: the answer is right
exactly if not `SHA_MAX_NUM` of the hashes in it are found. -/
theorem whohas_answered_iff (hpkts : chunks2pkts queue .whohas = some pkts) (hmem : pkt ∈ pkts)
    (hasChunkFile : Option (List UInt8)) (p : PeerRef) :
    ∃ whoHas, pkt2chunks pkt .whohas = some whoHas ∧ whoHas.length ≤ shaMaxNum ∧
      (AnswersRight (listChunks hasChunkFile) pkt p ↔
        (found (listChunks hasChunkFile) whoHas).length ≠ shaMaxNum) := by
  obtain ⟨whoHas, hwho, hlen⟩ := exists_pkt2chunks hpkts hmem
  refine ⟨whoHas, hwho, hlen, ?_⟩
  have hle : (found (listChunks hasChunkFile) whoHas).length ≤ shaMaxNum := by
    refine Nat.le_trans (List.length_filter_le _ _) ?_
    rw [List.length_map]
    exact hlen
  rw [answersRight_iff_lt hwho]
  exact ⟨Nat.ne_of_lt, Nat.lt_of_le_of_ne hle⟩

end Replies

/-- A has-chunk file with one line, whose hash is forty zeros. -/
def zeroHashFile : List UInt8 := [48, 32] ++ List.replicate 40 48 ++ [10]

theorem lists_zeroHashFile : Lists (listChunks (some zeroHashFile)) (List.replicate 40 48) = true := by
  decide

/-- Two hashes, as the checkpoint tests request them, both in the file. -/
theorem whohas_answered_iff_two : ∃ pkts pkt whoHas,
    chunks2pkts [zeroHashChunk 0, zeroHashChunk 1] .whohas = some pkts ∧ pkt ∈ pkts ∧
    pkt2chunks pkt .whohas = some whoHas ∧
    (AnswersRight (listChunks (some zeroHashFile)) pkt 0 ↔
      (found (listChunks (some zeroHashFile)) whoHas).length ≠ shaMaxNum) := by
  obtain ⟨first, rest, hpkts, -⟩ :=
    chunks2pkts_first (List.cons_ne_nil (zeroHashChunk 0) [zeroHashChunk 1]) (.inl (.refl PktType.whohas))
  obtain ⟨whoHas, hwho, -, hiff⟩ :=
    whohas_answered_iff hpkts (List.mem_cons_self ..) (some zeroHashFile) 0
  exact ⟨_, first, whoHas, hpkts, List.mem_cons_self .., hwho, hiff⟩

/-- Seventy-four times one hash that is in the file. -/
theorem not_whohas_answered : ¬ ∀ (queue : List ChunkT) (pkts : List Packet) (pkt : Packet)
    (whoHas : List ChunkT) (hasChunkFile : Option (List UInt8)) (p : PeerRef),
      (∀ c ∈ queue, c.HexText) → chunks2pkts queue .whohas = some pkts → pkt ∈ pkts →
      pkt2chunks pkt .whohas = some whoHas → 1 ≤ whoHas.length → whoHas.length ≤ shaMaxNum →
      AnswersRight (listChunks hasChunkFile) pkt p := by
  intro h
  let queue := List.replicate 75 (zeroHashChunk 0)
  have hhex : ∀ c ∈ queue, c.HexText := fun c hc ↦ by
    rw [List.eq_of_mem_replicate hc]
    exact hexText_zeroHashChunk 0
  have hne : queue ≠ [] := List.cons_ne_nil _ _
  obtain ⟨first, rest, hpkts, hwho⟩ := chunks2pkts_first hne (.inl (.refl PktType.whohas))
  have htake : queue.take (firstNum queue.length) = List.replicate 74 (zeroHashChunk 0) := rfl
  have hhash : (zeroHashChunk 0).hash = List.replicate 40 48 := rfl
  have hanswer := h queue _ first _ (some zeroHashFile) 0 hhex hpkts (List.mem_cons_self ..) hwho
    (by rw [List.length_map, htake, List.length_replicate]; decide)
    (by rw [List.length_map, htake, List.length_replicate]; decide)
  rw [answersRight_iff_lt hwho, found, map_hash_chunkOfHash hhex, htake, List.map_replicate, hhash,
    List.filter_replicate_of_pos lists_zeroHashFile, List.length_replicate] at hanswer
  exact absurd hanswer (by decide)

/-! ## Announced and served -/

/-- A new sender is found. -/
theorem getSender_addSender {F : Type} [NatCast F] {srv : Server F} {p : PeerRef}
    (hroom : srv.pool.curNum < srv.pool.maxNum) (pkts : List Packet) (num : Nat) :
    ∃ srv', srv.addSender (some p) pkts num = some srv' ∧ (srv'.getSender (some p)).isSome = true := by
  refine ⟨_, congrArg (Option.map _) (if_neg (Int.not_le.mpr hroom)), ?_⟩
  rw [Server.getSender, Option.bind_some, Pool.get, List.find?_isSome]
  refine ⟨srv.senders.length, List.mem_append_right _ (List.mem_singleton_self _), ?_⟩
  rw [Server.serves, List.getElem?_concat_length, Option.any_some]
  exact beq_self_eq_true _

section Served

variable {F : Type} [NatCast F] {srv : Server F} {p : PeerRef} {hash : List UInt8} {chunks : Option (List ChunkT)}

/-- `process_WHOHAS`, asked for one hash, answers with an IHAVE packet that lists it. -/
def Announces (chunks : Option (List ChunkT)) (hash : List UInt8) (p : PeerRef) : Prop :=
  ∃ pkt iHavePkt iHave, chunks2pkts [chunkOfHash hash] .whohas = some [pkt] ∧
    Server.processWHOHAS chunks pkt (some p) = some [(p, iHavePkt)] ∧
    pkt2chunks iHavePkt .ihave = some iHave ∧ hash.flatMap byteHex ∈ iHave.map ChunkT.hash

/-- `process_GET`, asked for a hash, opens an upload to the peer. -/
def StartsUpload (getDataChunk : List UInt8 → Option ChunkData) (srv : Server F) (hash : List UInt8)
    (p : PeerRef) : Prop :=
  ∃ srv' sent, srv.processGETChecked getDataChunk (makeGET hash) (some p) = some (srv', sent) ∧
    (srv'.getSender (some p)).isSome = true

/-- The request for one hash. -/
theorem chunks2pkts_chunkOfHash (h : hash.length = sha1HashSize) :
    ∃ pkt whoHas, chunks2pkts [chunkOfHash hash] .whohas = some [pkt] ∧
      pkt2chunks pkt .whohas = some whoHas ∧ whoHas.map ChunkT.hash = [hash.flatMap byteHex] := by
  have hhex : ∀ c ∈ [chunkOfHash hash], c.HexText := by
    intro c hc
    rw [List.mem_singleton.mp hc]
    exact hexText_chunkOfHash h
  obtain ⟨first, rest, hpkts, hwho⟩ :=
    chunks2pkts_first (List.cons_ne_nil (chunkOfHash hash) []) (.inl (.refl PktType.whohas))
  have hrest : rest = [] := by
    have hloop : chunks2pkts [chunkOfHash hash] .whohas =
        some (chunks2pktsLoop .whohas 1 1 [chunkOfHash hash]) :=
      chunks2pkts_eq (.inl (.refl PktType.whohas)) (by rw [List.length_singleton]; decide)
    rw [chunks2pktsLoop, chunks2pktsLoop, hpkts, Option.some.injEq] at hloop
    exact (List.cons.inj hloop).2
  subst hrest
  refine ⟨first, _, hpkts, hwho, ?_⟩
  rw [map_hash_chunkOfHash hhex]
  show [(chunkOfHash hash).hash] = _
  rw [hash_chunkOfHash_eq h]

/-- A hash is announced exactly if the has-chunk file lists it. -/
theorem announces_iff (h : hash.length = sha1HashSize) (chunks : Option (List ChunkT)) (p : PeerRef) :
    Announces chunks hash p ↔ Lists chunks (hash.flatMap byteHex) = true := by
  obtain ⟨pkt, whoHas, hpkts, hwho, hhash⟩ := chunks2pkts_chunkOfHash h
  have hfound : found chunks whoHas =
      if Lists chunks (hash.flatMap byteHex) = true then [hash.flatMap byteHex] else [] := by
    rw [found, hhash, List.filter_singleton]
    cases Lists chunks (hash.flatMap byteHex)
    · rfl
    · rfl
  have hright : AnswersRight chunks pkt p := by
    rw [answersRight_iff_lt hwho, hfound, shaMaxNum_eq]
    split
    · exact Nat.lt_of_sub_ne_zero (Nat.succ_ne_zero 72)
    · exact Nat.succ_pos 73
  obtain ⟨whoHas', sent, hwho', hsent, hanswer⟩ := hright
  rw [hwho, Option.some.injEq] at hwho'
  subst hwho'
  rw [hfound] at hanswer
  constructor
  · rintro ⟨pkt', iHavePkt, iHave, hpkts', hsent', -, -⟩
    rw [hpkts] at hpkts'
    cases hpkts'
    rw [hsent, Option.some.injEq] at hsent'
    by_contra hnot
    rw [if_neg hnot, if_pos rfl, hsent'] at hanswer
    cases hanswer
  · intro hlists
    rw [if_pos hlists, if_neg (List.cons_ne_nil _ _)] at hanswer
    obtain ⟨iHavePkt, iHave, rfl, hdecode, hhashes⟩ := hanswer
    refine ⟨pkt, iHavePkt, iHave, hpkts, hsent, hdecode, ?_⟩
    rw [hhashes]
    exact List.mem_singleton_self _

/-- With room for it an upload is opened exactly if `get_data_chunk` comes back with a
chunk. -/
theorem startsUpload_iff (hfree : srv.getSender (some p) = none)
    (hroom : srv.pool.curNum < srv.pool.maxNum) (h : hash.length = sha1HashSize)
    (getDataChunk : List UInt8 → Option ChunkData) :
    StartsUpload getDataChunk srv hash p ↔ (getDataChunk hash).isSome = true := by
  have hdata : (makeGET hash).data = hash := data_makePKT .get 0 (by decide) h
  have hslice : Bytes.slice (makeGET hash).data 0 sha1HashSize = some hash := by
    rw [Bytes.slice_of_le (by rw [hdata, h, Nat.zero_add]), hdata, List.drop_zero, ← h,
      List.take_length]
  have hproc : srv.processGETChecked getDataChunk (makeGET hash) (some p) =
      (getDataChunk hash).bind fun chunk ↦
        (srv.addSender (some p) (chunk2pkts chunk).1 (chunk2pkts chunk).2).map fun srv ↦ (srv, []) := by
    rw [Server.processGETChecked, hfree, Option.bind_none]
    simp only [Server.processGETChecked.openUpload, if_neg (Int.not_le.mpr hroom), hslice,
      Option.bind_some]
  rw [StartsUpload, hproc]
  cases getDataChunk hash with
  | none =>
      refine ⟨?_, fun hc ↦ Bool.noConfusion hc⟩
      rintro ⟨_, _, ⟨⟩, -⟩
  | some chunk =>
      refine ⟨fun _ ↦ rfl, fun _ ↦ ?_⟩
      obtain ⟨srv', hadd, hget⟩ :=
        getSender_addSender (p := p) hroom (chunk2pkts chunk).1 (chunk2pkts chunk).2
      rw [Option.bind_some, hadd]
      exact ⟨srv', [], rfl, hget⟩

/-- For a peer without an upload, with room in the pool: what is served is what is
announced exactly if the files can be opened just when the has-chunk file lists the
hash. -/
theorem served_iff_announced_iff (hfree : srv.getSender (some p) = none)
    (hroom : srv.pool.curNum < srv.pool.maxNum) (h : hash.length = sha1HashSize)
    (fopen : List UInt8 → Option (List UInt8)) (uncleared : Uncleared)
    (chunkFile hasChunkFile : Option (List UInt8)) :
    (StartsUpload (getDataChunk fopen uncleared chunkFile) srv hash p ↔
        Announces (listChunks hasChunkFile) hash p) ↔
      ((∃ file, chunkFile = some file ∧
          (fopen (dataFileName uncleared.fileName file)).isSome = true) ↔
        Lists (listChunks hasChunkFile) (hash.flatMap byteHex) = true) := by
  rw [startsUpload_iff hfree hroom h, announces_iff h, isSome_getDataChunk]

end Served

/-- A chunk file with one line, that of the hash of twenty zero bytes. -/
def oneLineChunkFile : List UInt8 :=
  [70, 105, 108, 101, 58, 32, 102, 10, 67, 10] ++ zeroHashFile

/-- A file of one byte, whatever its name. -/
def oneByteFile (_ : List UInt8) : Option (List UInt8) := some [1]

/-- A file name and a buffer that nothing was written to. -/
def Uncleared.zero : Uncleared where
  fileName := []
  data := { bytes := List.replicate btChunkSize 0, size_eq := List.length_replicate }

/-- The chunk file and the data file are there, and the has-chunk file lists the hash. -/
theorem served_iff_announced_iff_idle :
    (StartsUpload (getDataChunk oneByteFile .zero (some oneLineChunkFile))
          ({ senders := [], pool := .init 1 } : Server ℚ) (List.replicate 20 0) 0 ↔
        Announces (listChunks (some zeroHashFile)) (List.replicate 20 0) 0) ↔
      ((∃ file, some oneLineChunkFile = some file ∧
          (oneByteFile (dataFileName [] file)).isSome = true) ↔
        Lists (listChunks (some zeroHashFile)) ((List.replicate 20 0).flatMap byteHex) = true) :=
  served_iff_announced_iff rfl (by decide) rfl oneByteFile .zero (some oneLineChunkFile)
    (some zeroHashFile)

/-- An empty has-chunk file: nothing is announced, and the chunk is served. -/
theorem not_served_iff_announced : ¬ ∀ (srv : Server ℚ) (p : PeerRef) (hash : List UInt8)
    (fopen : List UInt8 → Option (List UInt8)) (uncleared : Uncleared)
    (chunkFile hasChunkFile : Option (List UInt8)),
      srv.getSender (some p) = none → srv.pool.curNum < srv.pool.maxNum →
      hash.length = sha1HashSize →
      (StartsUpload (getDataChunk fopen uncleared chunkFile) srv hash p ↔
        Announces (listChunks hasChunkFile) hash p) := by
  intro h
  let srv : Server ℚ := { senders := [], pool := .init 1 }
  have hfree : srv.getSender (some 0) = none := rfl
  have hroom : srv.pool.curNum < srv.pool.maxNum := Int.zero_lt_one
  have hlen : (List.replicate 20 (0 : UInt8)).length = sha1HashSize := rfl
  have hiff := h srv 0 _ oneByteFile .zero (some oneLineChunkFile) (some []) hfree hroom hlen
  rw [startsUpload_iff hfree hroom hlen, announces_iff hlen, isSome_getDataChunk] at hiff
  exact Bool.false_ne_true (hiff.mp ⟨oneLineChunkFile, rfl, rfl⟩)

end BitTorrent
