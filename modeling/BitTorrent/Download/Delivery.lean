import BitTorrent.Pools
import BitTorrent.Upload.System

/-!
# One packet delivered to a peer

`process_DATA` finds its receiver in the pool and the buffer in the receiver's
chunk record.  Seen from one of its connections, it takes a packet exactly as a
receiver on its own does, and it leaves every other connection and every other
buffer alone.
-/

namespace BitTorrent

/-! ## Records -/

section Store

variable (store : ChunkStore) (down : List ChunkRef) (chunk ref : ChunkRef) (new : ChunkState)

/-- `update_state` moves one record of the queue on to a later state, if any. -/
theorem updateState_cases :
    updateState store down chunk new = store ∨
    ∃ r, containsChunk store down (store chunk).hash = some r ∧
      (store r).cState.code < new.code ∧
      updateState store down chunk new = Function.update store r { store r with cState := new } := by
  rw [updateState]
  cases hc : containsChunk store down (store chunk).hash with
  | none => exact .inl rfl
  | some r =>
      by_cases hlt : (store r).cState.code < new.code ∧ new.code ≤ ChunkState.finished.code
      · exact .inr ⟨r, rfl, hlt.1, if_pos hlt⟩
      · exact .inl (if_neg hlt)

/-- It changes states only. -/
theorem updateState_frame :
    (updateState store down chunk new ref).data = (store ref).data ∧
      (updateState store down chunk new ref).sha1 = (store ref).sha1 ∧
      (updateState store down chunk new ref).id = (store ref).id ∧
      (updateState store down chunk new ref).holders = (store ref).holders := by
  rcases updateState_cases store down chunk new with heq | ⟨r, -, -, heq⟩
  · rw [heq]
    exact ⟨rfl, rfl, rfl, rfl⟩
  · rw [heq]
    by_cases href : ref = r
    · subst href
      rw [Function.update_self]
      exact ⟨rfl, rfl, rfl, rfl⟩
    · rw [Function.update_of_ne href]
      exact ⟨rfl, rfl, rfl, rfl⟩

@[simp] theorem data_updateState :
    (updateState store down chunk new ref).data = (store ref).data :=
  (updateState_frame store down chunk ref new).1

@[simp] theorem sha1_updateState :
    (updateState store down chunk new ref).sha1 = (store ref).sha1 :=
  (updateState_frame store down chunk ref new).2.1

@[simp] theorem id_updateState :
    (updateState store down chunk new ref).id = (store ref).id :=
  (updateState_frame store down chunk ref new).2.2.1

@[simp] theorem holders_updateState :
    (updateState store down chunk new ref).holders = (store ref).holders :=
  (updateState_frame store down chunk ref new).2.2.2

variable {store down chunk ref new}

/-- A record with another hash keeps its state. -/
theorem cState_updateState_of_ne (h : (store ref).hash ≠ (store chunk).hash) :
    (updateState store down chunk new ref).cState = (store ref).cState := by
  rcases updateState_cases store down chunk new with heq | ⟨r, hfound, -, heq⟩
  · rw [heq]
  · have hne : ref ≠ r := by
      rintro rfl
      apply h
      have hhash := List.find?_some hfound
      exact (eq_of_beq hhash).symm
    rw [heq, Function.update_of_ne hne]

/-- A finished record stays as it is. -/
theorem updateState_of_finished (h : (store ref).cState = .finished) :
    updateState store down chunk new ref = store ref := by
  rcases updateState_cases store down chunk new with heq | ⟨r, -, hlt, heq⟩
  · rw [heq]
  · rw [heq]
    by_cases href : ref = r
    · subst href
      rw [h] at hlt
      cases new <;> exact absurd hlt (by decide)
    · rw [Function.update_of_ne href]

/-- The record found by hash is finished, once it is to be. -/
theorem cState_updateState_finished (h : containsChunk store down (store chunk).hash = some ref) :
    (updateState store down chunk .finished ref).cState = .finished := by
  rw [updateState, h]
  by_cases hlt : (store ref).cState.code < ChunkState.finished.code
  · simp only [if_pos (show _ ∧ _ from ⟨hlt, Nat.le_refl ChunkState.finished.code⟩),
      Function.update_self]
  · simp only [if_neg (show ¬ (_ ∧ ChunkState.finished.code ≤ _) from fun hc ↦ hlt hc.1)]
    cases hs : (store ref).cState with
    | finished => rfl
    | _ => exact absurd (by rw [hs]; decide) hlt

end Store

/-- `contains_chunk` reads the hash texts only. -/
theorem containsChunk_congr {store store' : ChunkStore} (h : ∀ r, (store' r).sha1 = (store r).sha1)
    (queue : List ChunkRef) (hash : List UInt8) :
    containsChunk store' queue hash = containsChunk store queue hash := by
  simp only [containsChunk, ChunkT.hash, h]

/-- Storing a packet changes only the receiver's counters. -/
theorem Receiver.store_frame {rcvr rcvr' : Receiver} {data data' : ChunkData} {pkt : Packet}
    (h : rcvr.store data pkt = some (rcvr', data')) :
    rcvr'.pSender = rcvr.pSender ∧ rcvr'.chunk = rcvr.chunk := by
  rw [Receiver.store] at h
  split at h
  · obtain ⟨d, -, heq⟩ := Option.map_eq_some_iff.mp h
    cases heq
    exact ⟨rfl, rfl⟩
  · cases h
    exact ⟨rfl, rfl⟩

/-- The expected packet is the last one received. -/
theorem Receiver.lastRcvd_of_store {rcvr rcvr' : Receiver} {data data' : ChunkData} {pkt : Packet}
    (h : rcvr.store data pkt = some (rcvr', data')) (hexp : rcvr.Expects pkt) :
    rcvr'.lastRcvd = rcvr.nextExpected := by
  rw [Receiver.store, if_pos hexp] at h
  obtain ⟨d, -, heq⟩ := Option.map_eq_some_iff.mp h
  cases heq
  rfl

namespace Client

variable {c : Client} {p q : PeerRef} {ref : ChunkRef}

/-! ## Connections -/

/-- What the peer knows of its connection to `p`: the receiver, if the pool has
one, and the buffer of the chunk it fetches. -/
structure Connection (c : Client) (p : PeerRef) (r : Receiving) : Prop where
  get : getReceiver c.receiverPool (some p) = if r.opened = true then some r.rcvr else none
  sender : r.rcvr.pSender = p
  data : (c.chunks r.rcvr.chunk).data = r.chunk

/-- A receiver of the pool, with the buffer of its chunk. -/
theorem connection_of_get {rcvr : Receiver}
    (h : getReceiver c.receiverPool (some p) = some rcvr) :
    c.Connection p { rcvr := rcvr, chunk := (c.chunks rcvr.chunk).data, opened := true } :=
  ⟨h, (mem_of_getReceiver h).2, rfl⟩

/-- A new buffer changes nothing else in the records. -/
theorem chunks_setData (c : Client) (chunk : ChunkRef) (data : ChunkData) (ref : ChunkRef) :
    (c.setData chunk data).chunks ref =
      { c.chunks ref with data := if ref = chunk then data else (c.chunks ref).data } := by
  show Function.update c.chunks chunk _ ref = _
  by_cases h : ref = chunk
  · subst h
    rw [Function.update_self, if_pos rfl]
  · rw [Function.update_of_ne h, if_neg h]

theorem data_setData (c : Client) (chunk : ChunkRef) (data : ChunkData) (ref : ChunkRef) :
    ((c.setData chunk data).chunks ref).data = if ref = chunk then data else (c.chunks ref).data := by
  rw [chunks_setData]

/-- The bytes that are there anyway. -/
theorem setData_self (c : Client) (chunk : ChunkRef) :
    c.setData chunk (c.chunks chunk).data = c := by
  show { c with chunks := Function.update c.chunks chunk (c.chunks chunk) } = c
  rw [Function.update_eq_self]

theorem sha1_setData (c : Client) (chunk : ChunkRef) (data : ChunkData) (ref : ChunkRef) :
    ((c.setData chunk data).chunks ref).sha1 = (c.chunks ref).sha1 := by
  rw [chunks_setData]

theorem id_setData (c : Client) (chunk : ChunkRef) (data : ChunkData) (ref : ChunkRef) :
    ((c.setData chunk data).chunks ref).id = (c.chunks ref).id := by
  rw [chunks_setData]

theorem holders_setData (c : Client) (chunk : ChunkRef) (data : ChunkData) (ref : ChunkRef) :
    ((c.setData chunk data).chunks ref).holders = (c.chunks ref).holders := by
  rw [chunks_setData]

theorem cState_setData (c : Client) (chunk : ChunkRef) (data : ChunkData) (ref : ChunkRef) :
    ((c.setData chunk data).chunks ref).cState = (c.chunks ref).cState := by
  rw [chunks_setData]

/-- What a delivery of `p`'s leaves as it was. -/
structure DeliveryFrame (c c' : Client) (p : PeerRef) (chunk : ChunkRef) : Prop where
  pool : c'.receiverPool.Ok
  others : ∀ q, p ≠ q → getReceiver c'.receiverPool (some q) = getReceiver c.receiverPool (some q)
  data : ∀ ref, ref ≠ chunk → (c'.chunks ref).data = (c.chunks ref).data
  sha1 : ∀ ref, (c'.chunks ref).sha1 = (c.chunks ref).sha1
  id : ∀ ref, (c'.chunks ref).id = (c.chunks ref).id
  holders : ∀ ref, (c'.chunks ref).holders = (c.chunks ref).holders
  cState : ∀ ref, (c.chunks ref).hash ≠ (c.chunks chunk).hash →
    (c'.chunks ref).cState = (c.chunks ref).cState
  maxNum : c'.receiverPool.maxNum = c.receiverPool.maxNum
  down : c'.downChunks = c.downChunks
  done : c'.doneChunks = c.doneChunks

theorem DeliveryFrame.refl (h : c.receiverPool.Ok) (p : PeerRef) (chunk : ChunkRef) :
    c.DeliveryFrame c p chunk :=
  ⟨h, fun _ _ ↦ rfl, fun _ _ ↦ rfl, fun _ ↦ rfl, fun _ ↦ rfl, fun _ ↦ rfl, fun _ _ ↦ rfl, rfl, rfl, rfl⟩

theorem DeliveryFrame.trans {c₁ c₂ c₃ : Client} {chunk : ChunkRef} (h : c₁.DeliveryFrame c₂ p chunk)
    (h' : c₂.DeliveryFrame c₃ p chunk) : c₁.DeliveryFrame c₃ p chunk :=
  ⟨h'.pool, fun q hq ↦ (h'.others q hq).trans (h.others q hq),
    fun ref href ↦ (h'.data ref href).trans (h.data ref href),
    fun ref ↦ (h'.sha1 ref).trans (h.sha1 ref), fun ref ↦ (h'.id ref).trans (h.id ref),
    fun ref ↦ (h'.holders ref).trans (h.holders ref),
    fun ref href ↦ (h'.cState ref (by rw [ChunkT.hash, ChunkT.hash, h.sha1, h.sha1]; exact href)).trans
      (h.cState ref href),
    h'.maxNum.trans h.maxNum, h'.down.trans h.down, h'.done.trans h.done⟩

/-- Putting bytes into the buffer of `p`'s chunk and counting them. -/
theorem deliveryFrame_set (hpool : c.receiverPool.Ok) {rcvr : Receiver} (hp : rcvr.pSender = p)
    (data : ChunkData) :
    c.DeliveryFrame ((c.setReceiver rcvr).setData rcvr.chunk data) p rcvr.chunk where
  pool := hpool.set rcvr
  others _ hq := (getReceiver_set ..).trans (if_neg (hp ▸ hq))
  data _ href := (data_setData ..).trans (if_neg href)
  sha1 := sha1_setData _ _ _
  id := id_setData _ _ _
  holders := holders_setData _ _ _
  cState ref _ := cState_setData _ _ _ ref
  maxNum := rfl
  down := rfl
  done := rfl

/-- Closing the connection of `p` once its chunk is complete. -/
theorem deliveryFrame_finish (shahash : List UInt8 → List UInt8) (hpool : c.receiverPool.Ok)
    {rcvr : Receiver} (hp : rcvr.pSender = p) :
    c.DeliveryFrame (c.finishReceiver shahash rcvr) p rcvr.chunk where
  pool := hpool.remove rcvr
  others q hq := (getReceiver_removeReceiver hpool rcvr q).trans (if_neg (hp ▸ hq))
  data _ _ := data_updateState ..
  sha1 _ := sha1_updateState ..
  id _ := id_updateState ..
  holders _ := holders_updateState ..
  cState _ href := cState_updateState_of_ne href
  maxNum := rfl
  down := rfl
  done := rfl

/-- The records after a delivery: the new bytes, and the chunk's state once it is
complete. -/
def storeAfter (shahash : List UInt8 → List UInt8) (c : Client) (chunk : ChunkRef) (r : Receiving) :
    ChunkStore :=
  let store := (c.setData chunk r.chunk).chunks
  if r.opened = true then store
  else updateState store c.downChunks chunk
    (if checkChunk shahash r.chunk (c.chunks chunk).sha1 then .finished else .ready)

/-- Without a receiver for the peer, `process_DATA` does nothing. -/
theorem processDATA_of_none (shahash : List UInt8 → List UInt8) (pkt : Packet)
    (h : getReceiver c.receiverPool (some p) = none) :
    c.processDATA shahash pkt (some p) = some (c, []) := by
  rw [processDATA, h]

/-- `process_DATA` does to a connection what a receiver on its own does with the
packet, and answers with the same acknowledgments. -/
theorem Connection.processDATA {r r' : Receiving} {replies : List Packet} {pkt : Packet}
    (shahash : List UInt8 → List UInt8) (h : c.Connection p r) (hpool : c.receiverPool.Ok)
    (hproc : r.processDATA pkt = some (r', replies)) :
    ∃ c', c.processDATA shahash pkt (some p) = some (c', replies) ∧ c'.Connection p r' ∧
      c.DeliveryFrame c' p r.rcvr.chunk ∧ (r.opened = false → c' = c) ∧
      (r.opened = true → c'.chunks = c.storeAfter shahash r.rcvr.chunk r') := by
  by_cases hopen : r.opened = true
  · rw [Receiving.processDATA, if_pos hopen, Option.map_eq_some_iff] at hproc
    obtain ⟨⟨rcvr, chunk⟩, hstore, heq⟩ := hproc
    simp only [Prod.mk.injEq] at heq
    obtain ⟨rfl, rfl⟩ := heq
    obtain ⟨hsender, hchunk⟩ := Receiver.store_frame hstore
    have hget : getReceiver c.receiverPool (some p) = some r.rcvr := by rw [h.get, if_pos hopen]
    have hp : rcvr.pSender = p := hsender.trans h.sender
    let c₁ := (c.setReceiver rcvr).setData rcvr.chunk chunk
    have hframe₁ : c.DeliveryFrame c₁ p rcvr.chunk := deliveryFrame_set hpool hp chunk
    have hget₁ : getReceiver c₁.receiverPool (some p) = some rcvr := by
      show getReceiver (c.receiverPool.set rcvr) (some p) = _
      rw [getReceiver_set, if_pos hp, hget]
      rfl
    have hdata₁ : (c₁.chunks rcvr.chunk).data = chunk := (data_setData ..).trans (if_pos rfl)
    have hproc₁ : c.processDATA shahash pkt (some p) = some
        (if rcvr.Complete then (c₁.finishReceiver shahash rcvr, [makeACK (UInt32.ofNat rcvr.lastRcvd)])
        else (c₁, [makeACK (UInt32.ofNat rcvr.lastRcvd)])) := by
      rw [Client.processDATA, hget]
      show (r.rcvr.store (c.chunks r.rcvr.chunk).data pkt).map _ = _
      rw [h.data, hstore]
      rfl
    have hopen' : ¬ r.opened = false := by
      rw [hopen]
      exact Bool.noConfusion
    rw [← hchunk]
    by_cases hcomplete : rcvr.Complete
    · rw [if_pos hcomplete] at hproc₁
      refine ⟨_, hproc₁, ⟨?_, hp, ?_⟩,
        hframe₁.trans (deliveryFrame_finish shahash hframe₁.pool hp),
        fun hc ↦ absurd hc hopen', fun _ ↦ ?_⟩
      · show getReceiver (removeReceiver c₁.receiverPool rcvr) (some p) = _
        rw [getReceiver_removeReceiver hframe₁.pool, if_pos hp]
        simp [hcomplete]
      · show (updateState c₁.chunks _ _ _ rcvr.chunk).data = chunk
        rw [data_updateState, hdata₁]
      · show updateState c₁.chunks c.downChunks rcvr.chunk (if checkChunk shahash
          (c₁.chunks rcvr.chunk).data (c₁.chunks rcvr.chunk).sha1 then _ else _) = _
        rw [hdata₁, hframe₁.sha1]
        simp only [storeAfter, hcomplete, decide_true, Bool.not_true, Bool.false_eq_true, if_false]
        rfl
    · rw [if_neg hcomplete] at hproc₁
      refine ⟨_, hproc₁, ⟨?_, hp, hdata₁⟩, hframe₁, fun hc ↦ absurd hc hopen', fun _ ↦ ?_⟩
      · rw [hget₁]
        simp [hcomplete]
      · simp only [storeAfter, hcomplete, decide_false, Bool.not_false, if_true]
        rfl
  · have hclosed : r.opened = false := Bool.eq_false_of_not_eq_true hopen
    rw [Receiving.processDATA, if_neg hopen, Option.some.injEq] at hproc
    cases hproc
    have hget : getReceiver c.receiverPool (some p) = none := by rw [h.get, if_neg hopen]
    exact ⟨c, processDATA_of_none shahash pkt hget, h, .refl hpool p _, fun _ ↦ rfl,
      fun hc ↦ absurd hc hopen⟩

end Client

end BitTorrent
