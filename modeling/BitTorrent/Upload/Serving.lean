import BitTorrent.Pools
import BitTorrent.Upload.Sender

/-!
# The uploads of a serving peer

`process_ACK` and `process_GET` find an upload by its peer.  Seen from one of its
uploads, a serving peer does what the sender's side of a transfer does, and it
leaves the uploads to other peers alone.  The one thing that side does not do by
itself is to close when the same peer asks for another chunk.
-/

namespace BitTorrent

variable {F : Type} [NatCast F] [Add F] [Div F] [LE F] [DecidableLE F] [TruncU32 F]

namespace Sending

omit [NatCast F] [Add F] [Div F] [LE F] [DecidableLE F] [TruncU32 F] in
/-- `remove_sender` -/
def close (s : Sending F) : Sending F := { s with sdr := s.sdr.stopTimer, pooled := false }

theorem processACK_of_pooled {s : Sending F} (h : s.pooled = true) (n : Nat) :
    s.processACK n =
      { s with sdr := (s.sdr.processACK n).1, pooled := !(s.sdr.processACK n).2 } := if_pos h

/-- The steps of the threads leave the pool alone. -/
theorem pooled_thread {s s' : Sending F} {e : SendEvent} (he : ∀ n, e ≠ .ack n)
    (h : s.step e = some s') : s'.pooled = s.pooled := by
  cases step_cases h with
  | absent | ended | kept => exact absurd rfl (he _)
  | _ => rfl

end Sending

namespace Server

set_option linter.unusedSectionVars false

variable {srv srv' : Server F} {p : PeerRef} {i j : SenderRef} {s : Sending F} {t : SenderThread F}

/-- The peer an upload is for. -/
def peerOf (srv : Server F) (i : SenderRef) : Option PeerRef :=
  srv.senders[i]?.bind fun t ↦ t.sdr.pReceiver

/-- An upload, as the sender's side of a transfer. -/
def upload (srv : Server F) (i : SenderRef) : Option (Sending F) :=
  srv.senders[i]?.map fun t ↦ { toSenderThread := t, pooled := decide (i ∈ srv.pool.workers) }

/-- The pool counts its uploads, and no two of them are for the same peer. -/
structure Ok (srv : Server F) : Prop where
  counts : srv.pool.Counts
  added : ∀ i ∈ srv.pool.workers, i < srv.senders.length
  distinct : (srv.pool.workers.map srv.peerOf).Nodup

theorem upload_eq_some_iff :
    srv.upload i = some s ↔
      srv.senders[i]? = some s.toSenderThread ∧ s.pooled = decide (i ∈ srv.pool.workers) := by
  rw [upload, Option.map_eq_some_iff]
  constructor
  · rintro ⟨t, ht, rfl⟩
    exact ⟨ht, rfl⟩
  · rintro ⟨ht, hpooled⟩
    refine ⟨s.toSenderThread, ht, ?_⟩
    rw [← hpooled]

theorem peerOf_of_upload (h : srv.upload i = some s) : srv.peerOf i = s.sdr.pReceiver := by
  rw [peerOf, (upload_eq_some_iff.mp h).1]
  rfl

/-- `get_sender` searches the pool for the peer. -/
theorem getSender_eq_find (srv : Server F) (p : PeerRef) :
    srv.getSender (some p) = Keyed.find srv.peerOf srv.pool.workers (some p) := by
  show srv.pool.workers.find? (srv.serves (some p)) = _
  rw [Keyed.find]
  congr 1
  funext i
  rw [Bool.eq_iff_iff, decide_eq_true_iff, serves, peerOf]
  cases srv.senders[i]? with
  | none => exact ⟨fun h ↦ absurd h Bool.false_ne_true, fun h ↦ by cases h⟩
  | some t => exact beq_iff_eq

/-- It finds the one upload for the peer that is in the pool. -/
theorem Ok.getSender_eq_some_iff (h : srv.Ok) :
    srv.getSender (some p) = some i ↔
      ∃ s, srv.upload i = some s ∧ s.pooled = true ∧ s.sdr.pReceiver = some p := by
  rw [getSender_eq_find, Keyed.find_eq_some_iff h.distinct]
  constructor
  · rintro ⟨hmem, hpeer⟩
    obtain ⟨t, ht⟩ : ∃ t, srv.senders[i]? = some t := ⟨_, List.getElem?_eq_getElem (h.added i hmem)⟩
    rw [peerOf, ht] at hpeer
    have hupload : srv.upload i =
        some { toSenderThread := t, pooled := decide (i ∈ srv.pool.workers) } :=
      upload_eq_some_iff.mpr ⟨ht, rfl⟩
    exact ⟨_, hupload, decide_eq_true hmem, hpeer⟩
  · rintro ⟨s, hs, hpooled, hpeer⟩
    rw [(upload_eq_some_iff.mp hs).2] at hpooled
    exact ⟨of_decide_eq_true hpooled, (peerOf_of_upload hs).trans hpeer⟩

theorem ok_init (max : Int) : ({ senders := [], pool := .init max } : Server F).Ok where
  counts := Pool.counts_init max
  added _ h := absurd h List.not_mem_nil
  distinct := List.nodup_nil

/-! ## Changes to one upload -/

/-- A new state of an upload that is for the same peer. -/
theorem peerOf_setSender (hi : srv.peerOf i = t.sdr.pReceiver) :
    (srv.setSender i t).peerOf = srv.peerOf := by
  funext j
  show ((srv.senders.set i t)[j]?).bind _ = _
  rw [List.getElem?_set]
  by_cases hij : i = j
  · subst hij
    rw [if_pos rfl, hi]
    split
    · rfl
    · next hlen =>
        rw [← hi, peerOf, List.getElem?_eq_none (Nat.le_of_not_lt hlen)]
  · rw [if_neg hij]
    rfl

theorem Ok.setSender (h : srv.Ok) (hi : srv.peerOf i = t.sdr.pReceiver) :
    (srv.setSender i t).Ok where
  counts := h.counts
  added j hj := by
    show j < (srv.senders.set i t).length
    rw [List.length_set]
    exact h.added j hj
  distinct := by
    rw [peerOf_setSender hi]
    exact h.distinct

theorem upload_setSender (srv : Server F) (i j : SenderRef) (t : SenderThread F) :
    (srv.setSender i t).upload j =
      if i = j then (srv.upload j).map fun s ↦ { s with toSenderThread := t } else srv.upload j := by
  show ((srv.senders.set i t)[j]?).map _ = _
  rw [List.getElem?_set, upload]
  by_cases hij : i = j
  · subst hij
    rw [if_pos rfl, if_pos rfl]
    split
    · next hlen =>
        rw [List.getElem?_eq_getElem hlen]
        rfl
    · next hlen =>
        rw [List.getElem?_eq_none (Nat.le_of_not_lt hlen)]
        rfl
  · rw [if_neg hij, if_neg hij]
    rfl

/-- A thread of upload `i` makes a step. -/
def thread (srv : Server F) (i : SenderRef) (e : SendEvent) : Option (Server F) :=
  (srv.upload i).bind fun s ↦ (s.step e).map fun s' ↦ srv.setSender i s'.toSenderThread

theorem pool_thread {e : SendEvent} (h : srv.thread i e = some srv') : srv'.pool = srv.pool := by
  obtain ⟨s, -, h⟩ := Option.bind_eq_some_iff.mp h
  obtain ⟨s', -, rfl⟩ := Option.map_eq_some_iff.mp h
  rfl

theorem Ok.thread (h : srv.Ok) {e : SendEvent} (he : ∀ n, e ≠ .ack n)
    (hstep : srv.thread i e = some srv') :
    srv'.Ok ∧ srv'.senders.length = srv.senders.length ∧
      ∃ s s', srv.upload i = some s ∧ s.step e = some s' ∧
        ∀ j, srv'.upload j = if i = j then some s' else srv.upload j := by
  obtain ⟨s, hs, hstep⟩ := Option.bind_eq_some_iff.mp hstep
  obtain ⟨s', hs', rfl⟩ := Option.map_eq_some_iff.mp hstep
  have hpeer : srv.peerOf i = s'.sdr.pReceiver :=
    (peerOf_of_upload hs).trans (Sending.step_frame hs').2.2.symm
  refine ⟨h.setSender hpeer, List.length_set .., s, s', hs, hs', ?_⟩
  intro j
  rw [upload_setSender]
  by_cases hij : i = j
  · subst hij
    rw [if_pos rfl, if_pos rfl, hs, Option.map_some, ← Sending.pooled_thread he hs']
  · rw [if_neg hij, if_neg hij]

/-- `remove_sender` takes the upload out of the pool and stops its timer. -/
theorem Ok.removeSender (h : srv.Ok) (hget : srv.getSender (some p) = some i)
    (ht : t.sdr.pReceiver = some p) :
    (srv.removeSender i t).Ok ∧ ∀ j, (srv.removeSender i t).upload j =
      if i = j then some (Sending.close { toSenderThread := t, pooled := true }) else srv.upload j := by
  obtain ⟨s, hs, hpooled, hpeer⟩ := h.getSender_eq_some_iff.mp hget
  obtain ⟨pre, post, hworkers, -, -, hremove⟩ := h.counts.remove_of_get hget
  have hpool : (srv.removeSender i t).pool = srv.pool.remove (srv.serves (some p)) := by
    rw [← ht]
    rfl
  have hworkers' : (srv.removeSender i t).pool.workers = post ++ pre := by rw [hpool, hremove]
  have hkeep : (srv.removeSender i t).peerOf = srv.peerOf :=
    peerOf_setSender (t := { t with sdr := t.sdr.stopTimer })
      (((peerOf_of_upload hs).trans hpeer).trans ht.symm)
  have hperm : srv.pool.workers.Perm (i :: (post ++ pre)) := by
    rw [hworkers]
    exact List.perm_middle.trans ((List.perm_append_comm).cons i)
  have hdistinct : ((i :: (post ++ pre)).map srv.peerOf).Nodup :=
    ((hperm.map _).nodup_iff).mp h.distinct
  have hlen : (srv.removeSender i t).senders.length = srv.senders.length := List.length_set ..
  refine ⟨⟨?_, ?_, ?_⟩, ?_⟩
  · rw [hpool]
    exact h.counts.remove _
  · intro j hj
    rw [hworkers'] at hj
    rw [hlen]
    exact h.added j (hperm.mem_iff.mpr (List.mem_cons_of_mem _ hj))
  · rw [hkeep, hworkers']
    exact (List.nodup_cons.mp hdistinct).2
  · intro j
    have hgone : i ∉ post ++ pre := fun hmem ↦
      (List.nodup_cons.mp hdistinct).1 (List.mem_map_of_mem hmem)
    show ((srv.senders.set i { t with sdr := t.sdr.stopTimer })[j]?).map _ = _
    rw [hworkers', List.getElem?_set]
    by_cases hij : i = j
    · subst hij
      have hlt : i < srv.senders.length :=
        (List.getElem?_eq_some_iff.mp (upload_eq_some_iff.mp hs).1).1
      rw [if_pos rfl, if_pos rfl, if_pos hlt, Option.map_some, decide_eq_false hgone]
      rfl
    · have hmem : j ∈ post ++ pre ↔ j ∈ srv.pool.workers := by
        rw [hperm.mem_iff, List.mem_cons]
        exact ⟨.inr, fun hj ↦ hj.resolve_left (Ne.symm hij)⟩
      rw [if_neg hij, if_neg hij, upload]
      simp only [hmem]

/-- The peer has no upload in the pool any more. -/
theorem Ok.getSender_removeSender (h : srv.Ok) (hget : srv.getSender (some p) = some i)
    (ht : t.sdr.pReceiver = some p) : (srv.removeSender i t).getSender (some p) = none := by
  obtain ⟨hok, hupload⟩ := h.removeSender hget ht
  rw [Option.eq_none_iff_forall_ne_some]
  intro j hj
  obtain ⟨s', hs', hpooled', hpeer'⟩ := hok.getSender_eq_some_iff.mp hj
  rw [hupload] at hs'
  split at hs'
  · cases hs'
    cases hpooled'
  · next hij =>
      apply hij
      rw [← Option.some.injEq, ← hget]
      exact h.getSender_eq_some_iff.mpr ⟨s', hs', hpooled', hpeer'⟩

/-- `add_sender` for a peer without an upload adds one. -/
theorem Ok.addSender (h : srv.Ok) {pkts : List Packet} {num : Nat}
    (hfree : srv.getSender (some p) = none) (hadd : srv.addSender (some p) pkts num = some srv') :
    srv'.Ok ∧ srv'.senders.length = srv.senders.length + 1 ∧ ∀ j, srv'.upload j =
      if srv.senders.length = j then some (.init (some p) pkts num) else srv.upload j := by
  obtain ⟨pool, hpool, rfl⟩ := Option.map_eq_some_iff.mp hadd
  obtain ⟨hcounts, hworkers⟩ := h.counts.add hpool
  let t : SenderThread F := { sdr := newSender (some p) pkts num, timeouts := [], phase := .created }
  have hold : ∀ j, srv.senders.length ≠ j → (srv.senders ++ [t])[j]? = srv.senders[j]? := by
    intro j hj
    rw [List.getElem?_append]
    split
    · rfl
    · next hge =>
        have hlt : srv.senders.length < j := Nat.lt_of_le_of_ne (Nat.le_of_not_lt hge) hj
        rw [List.getElem?_eq_none (Nat.le_of_lt hlt), List.getElem?_eq_none]
        rw [List.length_singleton]
        exact Nat.sub_pos_of_lt hlt
  have hnew : (srv.senders ++ [t])[srv.senders.length]? = some t := by
    rw [List.getElem?_append_right (Nat.le_refl _), Nat.sub_self]
    rfl
  have hfresh : ∀ j ∈ srv.pool.workers, srv.senders.length ≠ j :=
    fun j hj ↦ Nat.ne_of_gt (h.added j hj)
  refine ⟨⟨hcounts, ?_, ?_⟩, ?_, ?_⟩
  · intro j hj
    show j < (srv.senders ++ [t]).length
    rw [List.length_append]
    rw [show pool.workers = _ from hworkers] at hj
    rcases List.mem_append.mp hj with hj | hj
    · exact Nat.lt_add_right _ (h.added j hj)
    · rw [List.mem_singleton.mp hj]
      exact Nat.lt_succ_self _
  · show (pool.workers.map fun j ↦ ((srv.senders ++ [t])[j]?).bind _).Nodup
    have hkeys : (srv.pool.workers.map fun j ↦ ((srv.senders ++ [t])[j]?).bind fun t ↦ t.sdr.pReceiver) =
        srv.pool.workers.map srv.peerOf :=
      List.map_congr_left fun j hj ↦ by rw [hold j (hfresh j hj)]; rfl
    rw [hworkers, List.map_append, hkeys, List.map_singleton, hnew, List.nodup_append]
    refine ⟨h.distinct, List.nodup_singleton _, ?_⟩
    rintro a ha b hb rfl
    obtain ⟨j, hj, hpeer⟩ := List.mem_map.mp ha
    rw [getSender_eq_find] at hfree
    apply Keyed.find_eq_none_iff.mp hfree j hj
    exact hpeer.trans (List.mem_singleton.mp hb)
  · exact List.length_append
  · intro j
    show ((srv.senders ++ [t])[j]?).map _ = _
    by_cases hj : srv.senders.length = j
    · subst hj
      rw [if_pos rfl, hnew, Option.map_some, hworkers,
        decide_eq_true (List.mem_append_right _ (List.mem_singleton_self _))]
      rfl
    · have hmem : j ∈ pool.workers ↔ j ∈ srv.pool.workers := by
        rw [hworkers, List.mem_append, List.mem_singleton]
        exact ⟨fun hc ↦ hc.resolve_right (Ne.symm hj), .inl⟩
      rw [if_neg hj, hold j hj, upload]
      simp only [hmem]

/-! ## The handlers -/

/-- Without an upload for the peer, `process_ACK` does nothing. -/
theorem processACK_of_none (pkt : Packet) (h : srv.getSender (some p) = none) :
    srv.processACK pkt (some p) = srv := by
  rw [processACK, h]

/-- `process_ACK` hands the number to the upload of its peer. -/
theorem Ok.processACK (h : srv.Ok) (pkt : Packet) (p : PeerRef) :
    (srv.processACK pkt (some p)).Ok ∧
    (srv.processACK pkt (some p)).senders.length = srv.senders.length ∧
    ∀ j, (srv.processACK pkt (some p)).upload j =
      if srv.getSender (some p) = some j then
        (srv.upload j).map fun s ↦ s.processACK pkt.header.ackNum.toNat
      else srv.upload j := by
  cases hget : srv.getSender (some p) with
  | none =>
      rw [processACK_of_none pkt hget]
      exact ⟨h, rfl, fun j ↦ (if_neg (Option.some_ne_none j).symm).symm⟩
  | some i =>
      obtain ⟨s, hs, hpooled, hpeer⟩ := h.getSender_eq_some_iff.mp hget
      have hsender := (upload_eq_some_iff.mp hs).1
      have hstep : s.step (.ack pkt.header.ackNum.toNat) =
          some (s.processACK pkt.header.ackNum.toNat) := rfl
      have hafter := Sending.processACK_of_pooled hpooled pkt.header.ackNum.toNat
      have hpeer' : (s.sdr.processACK pkt.header.ackNum.toNat).1.pReceiver = some p := by
        have hframe := (Sending.step_frame hstep).2.2
        rw [hafter] at hframe
        exact hframe.trans hpeer
      rw [Server.processACK, hget]
      simp only [hsender]
      rcases s.sdr.processACK_cases pkt.header.ackNum.toNat with ⟨hout, -, -, hstop⟩ | ⟨hin, -, -⟩
      · rw [if_pos hout]
        obtain ⟨hok, hupload⟩ := h.removeSender (t := { s.toSenderThread with
          sdr := (s.sdr.processACK pkt.header.ackNum.toNat).1 }) hget hpeer'
        refine ⟨hok, List.length_set .., fun j ↦ (hupload j).trans ?_⟩
        by_cases hij : i = j
        · subst hij
          rw [if_pos rfl, if_pos rfl, hs, Option.map_some, hafter, hout]
          simp only [Sending.close, hstop]
          rfl
        · rw [if_neg hij, if_neg (fun hc ↦ hij (Option.some.inj hc))]
      · rw [if_neg (by rw [hin]; exact Bool.false_ne_true)]
        refine ⟨h.setSender ((peerOf_of_upload hs).trans (hpeer.trans hpeer'.symm)), List.length_set ..,
          fun j ↦ (upload_setSender ..).trans ?_⟩
        by_cases hij : i = j
        · subst hij
          rw [if_pos rfl, if_pos rfl, hs, Option.map_some, Option.map_some, hafter, hin, hpooled]
          rfl
        · rw [if_neg hij, if_neg (fun hc ↦ hij (Option.some.inj hc))]

/-- For a peer without an upload, `process_GET` opens one if there is room. -/
theorem processGET_of_none (getDataChunk : List UInt8 → ChunkData) (pkt : Packet)
    (hfree : srv.getSender (some p) = none)
    (hadd : srv.addSender (some p) (chunk2pkts (getDataChunk (pkt.data.take sha1HashSize))).1
      (chunk2pkts (getDataChunk (pkt.data.take sha1HashSize))).2 = some srv') :
    (srv.processGET getDataChunk pkt (some p)).1 = srv' := by
  simp only [processGET, hfree, Option.bind_none, processGET.openUpload, hadd]

/-- `process_GET` closes the upload of its peer if all of it was sent, and may then
open another. -/
theorem Ok.processGET (h : srv.Ok) (getDataChunk : List UInt8 → ChunkData) (pkt : Packet)
    (p : PeerRef) :
    (srv.processGET getDataChunk pkt (some p)).1 = srv ∨
    ∃ srv₁ : Server F, srv₁.Ok ∧ srv₁.senders.length = srv.senders.length ∧
      srv₁.getSender (some p) = none ∧
      (∀ j, srv₁.upload j =
        if srv.getSender (some p) = some j then (srv.upload j).map Sending.close else srv.upload j) ∧
      ((srv.processGET getDataChunk pkt (some p)).1 = srv₁ ∨
        srv₁.addSender (some p) (chunk2pkts (getDataChunk (pkt.data.take sha1HashSize))).1
          (chunk2pkts (getDataChunk (pkt.data.take sha1HashSize))).2 =
            some (srv.processGET getDataChunk pkt (some p)).1) := by
  have hopen : ∀ srv₁ : Server F, (processGET.openUpload getDataChunk pkt (some p) srv₁).1 = srv₁ ∨
      srv₁.addSender (some p) (chunk2pkts (getDataChunk (pkt.data.take sha1HashSize))).1
          (chunk2pkts (getDataChunk (pkt.data.take sha1HashSize))).2 =
        some (processGET.openUpload getDataChunk pkt (some p) srv₁).1 := by
    intro srv₁
    simp only [processGET.openUpload]
    cases hadd : srv₁.addSender (some p) (chunk2pkts (getDataChunk (pkt.data.take sha1HashSize))).1
        (chunk2pkts (getDataChunk (pkt.data.take sha1HashSize))).2 with
    | none => exact .inl rfl
    | some srv₂ => exact .inr rfl
  rw [Server.processGET]
  cases hget : srv.getSender (some p) with
  | none =>
      refine .inr ⟨srv, h, rfl, hget, ?_, hopen srv⟩
      exact fun j ↦ (if_neg (Option.some_ne_none j).symm).symm
  | some i =>
      obtain ⟨s, hs, hpooled, hpeer⟩ := h.getSender_eq_some_iff.mp hget
      have hsender := (upload_eq_some_iff.mp hs).1
      simp only [Option.bind_some, hsender, Option.map_some]
      split
      · obtain ⟨hok, hupload⟩ := h.removeSender (t := s.toSenderThread) hget hpeer
        refine .inr ⟨srv.removeSender i s.toSenderThread, hok, List.length_set ..,
          h.getSender_removeSender hget hpeer, ?_, hopen _⟩
        · intro j
          rw [hupload]
          by_cases hij : i = j
          · subst hij
            rw [if_pos rfl, if_pos rfl, hs, Option.map_some, ← hpooled]
          · rw [if_neg hij, if_neg (fun hc ↦ hij (Option.some.inj hc))]
      · exact .inl rfl

/-! ## What a handler leaves alone -/

/-- What an upload offers: its peer and its packets. -/
def offer (srv : Server F) (i : SenderRef) : Option (Option PeerRef × List Packet) :=
  (srv.upload i).map fun s ↦ (s.sdr.pReceiver, s.sdr.pkts)

theorem offer_of_upload (h : srv.upload i = some s) :
    srv.offer i = some (s.sdr.pReceiver, s.sdr.pkts) := by rw [offer, h, Option.map_some]

/-- There is no upload yet at the place of the next one. -/
theorem offer_length (srv : Server F) : srv.offer srv.senders.length = none := by
  rw [offer, upload, List.getElem?_eq_none (Nat.le_refl _)]
  rfl

theorem ne_of_offer {j : SenderRef} {x : Option PeerRef × List Packet}
    (hj : srv.offer j = some x) : srv.senders.length ≠ j := by
  rintro rfl
  rw [srv.offer_length] at hj
  cases hj

/-- The same offers, and no peer finds an upload in the pool that it did not find before. -/
structure Keeps (srv srv' : Server F) : Prop where
  ok : srv'.Ok
  length : srv'.senders.length = srv.senders.length
  offer : srv'.offer = srv.offer
  pooled : ∀ p i, srv'.getSender (some p) = some i → srv.getSender (some p) = some i

/-- Changing an upload without putting it back into the pool. -/
theorem Ok.keeps (h : srv.Ok) (hok : srv'.Ok) (hlen : srv'.senders.length = srv.senders.length)
    (hupload : ∀ j, srv'.upload j = srv.upload j ∨ ∃ s s', srv.upload j = some s ∧
      srv'.upload j = some s' ∧ s'.sdr.pReceiver = s.sdr.pReceiver ∧ s'.sdr.pkts = s.sdr.pkts ∧
      (s'.pooled = true → s.pooled = true)) : srv.Keeps srv' := by
  refine ⟨hok, hlen, ?_, ?_⟩
  · funext j
    rcases hupload j with heq | ⟨s, s', hs, hs', hpeer, hpkts, -⟩
    · rw [Server.offer, Server.offer, heq]
    · rw [offer_of_upload hs, offer_of_upload hs', hpeer, hpkts]
  · intro p i hi
    apply h.getSender_eq_some_iff.mpr
    obtain ⟨t, ht, hpooled, hpeer⟩ := hok.getSender_eq_some_iff.mp hi
    rcases hupload i with heq | ⟨s, s', hs, hs', hsame, -, hin⟩
    · exact ⟨t, heq ▸ ht, hpooled, hpeer⟩
    · rw [hs', Option.some.injEq] at ht
      subst ht
      exact ⟨s, hs, hin hpooled, hsame.symm.trans hpeer⟩

theorem Ok.keeps_thread (h : srv.Ok) {e : SendEvent} (he : ∀ n, e ≠ .ack n)
    (hstep : srv.thread i e = some srv') : srv.Keeps srv' := by
  obtain ⟨hok, hlen, s, s', hs, hs', hupload⟩ := h.thread he hstep
  refine h.keeps hok hlen fun j ↦ ?_
  by_cases hij : i = j
  · subst hij
    obtain ⟨hpkts, -, hpeer⟩ := Sending.step_frame hs'
    refine .inr ⟨s, s', hs, (hupload i).trans (if_pos rfl), hpeer, hpkts, ?_⟩
    rw [Sending.pooled_thread he hs']
    exact id
  · exact .inl ((hupload j).trans (if_neg hij))

theorem Ok.keeps_processACK (h : srv.Ok) (pkt : Packet) (p : PeerRef) :
    srv.Keeps (srv.processACK pkt (some p)) := by
  obtain ⟨hok, hlen, hupload⟩ := h.processACK pkt p
  refine h.keeps hok hlen fun j ↦ ?_
  by_cases hj : srv.getSender (some p) = some j
  · obtain ⟨s, hs, hpooled, -⟩ := h.getSender_eq_some_iff.mp hj
    have hstep : s.step (.ack pkt.header.ackNum.toNat) = some _ := rfl
    obtain ⟨hpkts, -, hpeer⟩ := Sending.step_frame hstep
    refine .inr ⟨s, _, hs, ?_, hpeer, hpkts, fun _ ↦ hpooled⟩
    rw [hupload, if_pos hj, hs, Option.map_some]
  · exact .inl ((hupload j).trans (if_neg hj))

/-- `process_GET` leaves the other peers' uploads alone, and what its own peer finds
in the pool afterwards is the new upload, if there is one. -/
theorem Ok.processGET_cases (h : srv.Ok) (getDataChunk : List UInt8 → ChunkData) (pkt : Packet)
    (p : PeerRef) :
    srv.Keeps (srv.processGET getDataChunk pkt (some p)).1 ∨
    ((srv.processGET getDataChunk pkt (some p)).1.Ok ∧
      (srv.processGET getDataChunk pkt (some p)).1.getSender (some p) = some srv.senders.length ∧
      (∀ j, (srv.processGET getDataChunk pkt (some p)).1.offer j = if srv.senders.length = j then
        some (some p, (chunk2pkts (getDataChunk (pkt.data.take sha1HashSize))).1) else srv.offer j) ∧
      ∀ q i, p ≠ q → (srv.processGET getDataChunk pkt (some p)).1.getSender (some q) = some i →
        srv.getSender (some q) = some i) := by
  rcases h.processGET getDataChunk pkt p with heq | ⟨srv₁, hok₁, hlen₁, hfree, hupload₁, hcase⟩
  · rw [heq]
    exact .inl ⟨h, rfl, rfl, fun _ _ hi ↦ hi⟩
  · have hkeeps : srv.Keeps srv₁ := by
      refine h.keeps hok₁ hlen₁ fun j ↦ ?_
      by_cases hj : srv.getSender (some p) = some j
      · obtain ⟨s, hs, hpooled, -⟩ := h.getSender_eq_some_iff.mp hj
        refine .inr ⟨s, s.close, hs, ?_, rfl, rfl, fun _ ↦ hpooled⟩
        rw [hupload₁, if_pos hj, hs, Option.map_some]
      · exact .inl ((hupload₁ j).trans (if_neg hj))
    rcases hcase with heq | hadd
    · rw [heq]
      exact .inl hkeeps
    · obtain ⟨hok₂, -, hupload₂⟩ := hok₁.addSender hfree hadd
      rw [hlen₁] at hupload₂
      refine .inr ⟨hok₂, ?_, ?_, ?_⟩
      · apply hok₂.getSender_eq_some_iff.mpr
        exact ⟨_, (hupload₂ _).trans (if_pos rfl), rfl, rfl⟩
      · intro j
        by_cases hj : srv.senders.length = j
        · rw [if_pos hj, offer_of_upload ((hupload₂ j).trans (if_pos hj))]
          rfl
        · rw [if_neg hj, ← hkeeps.offer, Server.offer, Server.offer, hupload₂, if_neg hj]
      · intro q i hq hi
        obtain ⟨s, hs, hpooled, hpeer⟩ := hok₂.getSender_eq_some_iff.mp hi
        apply hkeeps.pooled
        apply hok₁.getSender_eq_some_iff.mpr
        rw [hupload₂] at hs
        split at hs
        · cases hs
          exact absurd (Option.some.inj hpeer) hq
        · exact ⟨s, hs, hpooled, hpeer⟩

/-- The uploads to one peer after a step that concerns other peers. -/
structure Apart (srv : Server F) (p : PeerRef) (srv' : Server F) : Prop where
  ok : srv'.Ok
  offer : ∀ j pkts, srv'.offer j = some (some p, pkts) ↔ srv.offer j = some (some p, pkts)
  pooled : ∀ i, srv'.getSender (some p) = some i → srv.getSender (some p) = some i

theorem Keeps.apart (h : srv.Keeps srv') (p : PeerRef) : srv.Apart p srv' :=
  ⟨h.ok, fun j pkts ↦ by rw [h.offer], h.pooled p⟩

/-- `process_GET` for one peer is apart from the uploads to another. -/
theorem Ok.apart_processGET {q : PeerRef} (h : srv.Ok) (hpq : p ≠ q)
    (getDataChunk : List UInt8 → ChunkData) (pkt : Packet) :
    srv.Apart q (srv.processGET getDataChunk pkt (some p)).1 := by
  rcases h.processGET_cases getDataChunk pkt p with hkeeps | ⟨hok, -, hoffer, hpooled⟩
  · exact hkeeps.apart q
  · refine ⟨hok, ?_, fun i ↦ hpooled q i hpq⟩
    intro j pkts
    rw [hoffer]
    split
    · next hj =>
        rw [← hj, srv.offer_length]
        constructor
        · intro hc
          cases hc
          exact absurd rfl hpq
        · rintro ⟨⟩
    · rfl

end Server

end BitTorrent
