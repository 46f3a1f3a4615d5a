import BitTorrent.Download.Checking
import BitTorrent.Peer.Pools
import BitTorrent.Upload.Independence

/-!
# Whose entries a packet changes

Every handler changes the entries of the peer it is given, and no others but for one:
`update_state` looks for the chunk that has arrived by its hash, and may find another
record with that hash.  Which peer the handler is given is decided by `get_peer`, which
compares ports only and finds none for an unknown sender.  So a packet changes the
entries of exactly the peer with its address if `get_peer` returns that peer and no other
record is marked, or else if the handler changes nothing at all.
-/

namespace BitTorrent

set_option linter.unusedSectionVars false

variable {F : Type} [NatCast F] [Add F] [Div F] [LE F] [DecidableLE F] [TruncU32 F]

/-! ## Uploads -/

namespace Server

variable {srv srv₁ srv₂ : Server F} {peer : Option PeerRef} {pkt : Packet} {p : PeerRef}
  {i : SenderRef} {t : SenderThread F}

/-- The pool counts its workers, and each of them points to a sender. -/
structure Queued (srv : Server F) : Prop where
  counts : srv.pool.Counts
  added : ∀ i ∈ srv.pool.workers, i < srv.senders.length

/-- The entries of the pool, with the peers they are for. -/
def entries (srv : Server F) : List (SenderRef × Option PeerRef) :=
  srv.pool.workers.map fun i ↦ (i, srv.peerOf i)

/-- The senders of other peers are as they were, and so are their places in the pool. -/
structure TouchesOnly (srv : Server F) (peer : Option PeerRef) (srv' : Server F) : Prop where
  senders : ∀ (i : SenderRef) (t : SenderThread F), srv.senders[i]? = some t →
    t.sdr.pReceiver ≠ peer → srv'.senders[i]? = some t
  workers : (srv'.entries.filter fun e ↦ e.2 ≠ peer).Perm (srv.entries.filter fun e ↦ e.2 ≠ peer)

theorem TouchesOnly.refl (srv : Server F) (peer : Option PeerRef) : srv.TouchesOnly peer srv :=
  ⟨fun _ _ h _ ↦ h, .refl _⟩

theorem TouchesOnly.trans (h : srv.TouchesOnly peer srv₁) (h' : srv₁.TouchesOnly peer srv₂) :
    srv.TouchesOnly peer srv₂ :=
  ⟨fun i t ht hne ↦ h'.senders i t (h.senders i t ht hne) hne, h'.workers.trans h.workers⟩

/-- The senders are the same, and so are the entries of the pool but for their order. -/
structure Unchanged (srv srv' : Server F) : Prop where
  senders : ∀ (i : SenderRef) (t : SenderThread F), srv.senders[i]? = some t →
    srv'.senders[i]? = some t
  workers : srv'.pool.workers.Perm srv.pool.workers

/-- What touches the entries of one peer only, and those of another only, touches none. -/
theorem TouchesOnly.both {peer' : Option PeerRef} (h : srv.TouchesOnly peer srv₁)
    (h' : srv.TouchesOnly peer' srv₁) (hne : peer ≠ peer') : srv.Unchanged srv₁ := by
  have hentries : srv₁.entries.Perm srv.entries := by
    refine Keyed.perm_of_filter h.workers h'.workers fun e ↦ ?_
    by_cases hpeer : e.2 = peer
    · refine .inr (decide_eq_true ?_)
      rw [hpeer]
      exact hne
    · exact .inl (decide_eq_true hpeer)
  constructor
  · intro i t ht
    by_cases hpeer : t.sdr.pReceiver = peer
    · exact h'.senders i t ht (by rw [hpeer]; exact hne)
    · exact h.senders i t ht hpeer
  · have hworkers := hentries.map Prod.fst
    simpa only [entries, List.map_map, Function.comp_def, List.map_id'] using hworkers

theorem queued_init (max : Int) : ({ senders := [], pool := .init max } : Server F).Queued :=
  ⟨Pool.counts_init max, fun _ h ↦ absurd h List.not_mem_nil⟩

theorem Queued.setSender (h : srv.Queued) (i : SenderRef) (t : SenderThread F) :
    (srv.setSender i t).Queued := by
  refine ⟨h.counts, fun j hj ↦ ?_⟩
  show j < (srv.senders.set i t).length
  rw [List.length_set]
  exact h.added j hj

theorem Queued.removeSender (h : srv.Queued) (i : SenderRef) (t : SenderThread F) :
    (srv.removeSender i t).Queued := by
  refine ⟨h.counts.remove _, fun j hj ↦ ?_⟩
  show j < (srv.senders.set i _).length
  rw [List.length_set]
  have hperm := h.counts.perm_remove (srv.serves t.sdr.pReceiver)
  exact h.added j (List.mem_of_mem_eraseP (hperm.mem_iff.mp hj))

theorem Queued.thread (h : srv.Queued) {e : SendEvent} (hstep : srv.thread i e = some srv₁) :
    srv₁.Queued := by
  obtain ⟨s, -, hstep⟩ := Option.bind_eq_some_iff.mp hstep
  obtain ⟨s', -, rfl⟩ := Option.map_eq_some_iff.mp hstep
  exact h.setSender i _

/-- A new sender is the last of all, and the last in the pool. -/
theorem Queued.addSender (h : srv.Queued) {pkts : List Packet} {num : Nat}
    (hadd : srv.addSender peer pkts num = some srv₁) :
    srv₁.Queued ∧ srv₁.pool.workers = srv.pool.workers ++ [srv.senders.length] ∧
      srv₁.senders = srv.senders ++
        [{ sdr := newSender peer pkts num, timeouts := [], phase := .created }] := by
  obtain ⟨pool, hpool, rfl⟩ := Option.map_eq_some_iff.mp hadd
  obtain ⟨hcounts, hworkers⟩ := h.counts.add hpool
  refine ⟨⟨hcounts, fun j hj ↦ ?_⟩, hworkers, rfl⟩
  show j < (srv.senders ++ _).length
  rw [List.length_append, List.length_singleton]
  rw [show pool.workers = _ from hworkers] at hj
  rcases List.mem_append.mp hj with hj | hj
  · exact Nat.lt_succ_of_lt (h.added j hj)
  · rw [List.mem_singleton.mp hj]
    exact Nat.lt_succ_self _

/-- A new state of a sender is its peer's business. -/
theorem touchesOnly_setSender (hi : srv.peerOf i = peer) (ht : t.sdr.pReceiver = peer) :
    srv.TouchesOnly peer (srv.setSender i t) := by
  constructor
  · intro j u hu hne
    show (srv.senders.set i t)[j]? = some u
    rw [List.getElem?_set_ne, hu]
    rintro rfl
    apply hne
    rw [← hi, peerOf, hu]
    rfl
  · rw [entries, peerOf_setSender (hi.trans ht.symm)]
    exact .refl _

/-- Removing a sender is. -/
theorem Queued.touchesOnly_removeSender (h : srv.Queued) (hi : srv.peerOf i = some p)
    (ht : t.sdr.pReceiver = some p) : srv.TouchesOnly (some p) (srv.removeSender i t) := by
  refine ⟨(touchesOnly_setSender (t := { t with sdr := t.sdr.stopTimer }) hi ht).senders, ?_⟩
  have hkeep : (srv.removeSender i t).peerOf = srv.peerOf :=
    peerOf_setSender (t := { t with sdr := t.sdr.stopTimer }) (hi.trans ht.symm)
  have hserves : ∀ j, srv.serves t.sdr.pReceiver j = true → srv.peerOf j = some p := by
    intro j hj
    obtain ⟨u, hu, hpeer⟩ := serves_iff.mp hj
    rw [peerOf, hu]
    exact hpeer.trans ht
  have hperm := h.counts.perm_remove (srv.serves t.sdr.pReceiver)
  rw [entries, hkeep, entries, List.filter_map, List.filter_map]
  refine (((hperm.filter _).trans (.of_eq ?_)).map _)
  apply Keyed.filter_eraseP_of_disjoint
  intro j _ hj
  simp [hserves j hj]

/-- Adding a sender is. -/
theorem Queued.touchesOnly_addSender (h : srv.Queued) {pkts : List Packet} {num : Nat}
    (hadd : srv.addSender peer pkts num = some srv₁) : srv.TouchesOnly peer srv₁ := by
  obtain ⟨-, hworkers, hsenders⟩ := h.addSender hadd
  have hold : ∀ j < srv.senders.length, srv₁.senders[j]? = srv.senders[j]? := by
    intro j hj
    rw [hsenders, List.getElem?_append_left hj]
  have hnew : srv₁.peerOf srv.senders.length = peer := by
    rw [peerOf, hsenders, List.getElem?_append_right (Nat.le_refl _), Nat.sub_self]
    rfl
  constructor
  · intro j u hu _
    rw [hold j (List.getElem?_eq_some_iff.mp hu).1]
    exact hu
  · have hkeys : srv.pool.workers.map (fun j ↦ (j, srv₁.peerOf j)) = srv.entries :=
      List.map_congr_left fun j hj ↦ by rw [peerOf, peerOf, hold j (h.added j hj)]
    rw [entries, hworkers, List.map_append, hkeys, List.map_singleton, hnew, List.filter_append,
      List.filter_cons_of_neg (by simp), List.filter_nil, List.append_nil]

/-! ### `process_ACK` -/

theorem Queued.processACK (h : srv.Queued) (pkt : Packet) (peer : Option PeerRef) :
    (srv.processACK pkt peer).Queued := by
  rw [Server.processACK]
  split
  · exact h
  · split
    · exact h
    · dsimp only
      split
      · exact h.removeSender _ _
      · exact h.setSender _ _

/-- A sender is found for a peer only. -/
theorem exists_peer_of_getSender (h : srv.getSender peer = some i) : ∃ p, peer = some p := by
  cases peer with
  | none => cases h
  | some p => exact ⟨p, rfl⟩

/-- The entry of the pool found for a peer. -/
theorem peerOf_of_getSender (h : srv.getSender (some p) = some i) : srv.peerOf i = some p := by
  obtain ⟨t, ht, hpeer⟩ := exists_of_getSender h
  rw [peerOf, ht]
  exact hpeer

/-- What `process_ACK` does once the upload is found. -/
theorem processACK_of_getSender (pkt : Packet) (hget : srv.getSender (some p) = some i)
    (ht : srv.senders[i]? = some t) :
    srv.processACK pkt (some p) =
      if (t.sdr.processACK pkt.header.ackNum.toNat).2 = true then
        srv.removeSender i { t with sdr := (t.sdr.processACK pkt.header.ackNum.toNat).1 }
      else srv.setSender i { t with sdr := (t.sdr.processACK pkt.header.ackNum.toNat).1 } := by
  rw [Server.processACK, hget]
  simp only [ht]

theorem Queued.touchesOnly_processACK (h : srv.Queued) (pkt : Packet) (p : PeerRef) :
    srv.TouchesOnly (some p) (srv.processACK pkt (some p)) := by
  cases hget : srv.getSender (some p) with
  | none =>
      rw [processACK_of_none pkt hget]
      exact .refl _ _
  | some i =>
      obtain ⟨t, ht, hpeer⟩ := exists_of_getSender hget
      have hkeep := (t.sdr.pReceiver_processACK pkt.header.ackNum.toNat).trans hpeer
      rw [processACK_of_getSender pkt hget ht]
      split
      · exact h.touchesOnly_removeSender (peerOf_of_getSender hget) hkeep
      · exact touchesOnly_setSender (peerOf_of_getSender hget) hkeep

/-- The ACK changes nothing in the upload of its peer, if there is one: it is a final ACK
that comes too early, or an old one that finds no timer running. -/
def IgnoresACK (srv : Server F) (pkt : Packet) (peer : Option PeerRef) : Prop :=
  ∀ (i : SenderRef) (t : SenderThread F), srv.getSender peer = some i → srv.senders[i]? = some t →
    if t.sdr.pktNum ≤ pkt.header.ackNum.toNat then t.sdr.lastSent < t.sdr.pktNum
    else pkt.header.ackNum.toNat < t.sdr.lastAcked ∧ t.sdr.timer.running = false

/-- Any other ACK changes the sender, or removes it. -/
theorem processACK_eq_self_iff (sdr : Sender F) (n : Nat) :
    sdr.processACK n = (sdr, false) ↔
      if sdr.pktNum ≤ n then sdr.lastSent < sdr.pktNum
      else n < sdr.lastAcked ∧ sdr.timer.running = false := by
  rw [Sender.processACK]
  by_cases hfinal : sdr.pktNum ≤ n
  · rw [if_pos hfinal, if_pos hfinal]
    by_cases hsent : sdr.lastSent < sdr.pktNum
    · rw [if_pos hsent]
      exact iff_of_true rfl hsent
    · rw [if_neg hsent]
      exact iff_of_false (fun h ↦ Bool.noConfusion (congrArg Prod.snd h)) hsent
  · rw [if_neg hfinal, if_neg hfinal]
    by_cases hnew : sdr.lastAcked < n
    · rw [if_pos hnew]
      refine iff_of_false (fun h ↦ ?_) fun h ↦ Nat.lt_asymm h.1 hnew
      have hacked : n = sdr.lastAcked := congrArg (fun r ↦ r.1.lastAcked) h
      exact Nat.ne_of_gt hnew hacked
    · rw [if_neg hnew]
      by_cases hdup : n = sdr.lastAcked
      · rw [if_pos hdup]
        refine iff_of_false (fun h ↦ ?_) fun h ↦ Nat.ne_of_lt h.1 hdup
        have hcount : (sdr.duplicate n).dupAckNum = sdr.dupAckNum :=
          congrArg (fun r ↦ r.1.dupAckNum) h
        rw [Sender.duplicate] at hcount
        split at hcount
        · next hmax =>
            -- the third duplicate starts the count again
            have hone : 1 = sdr.dupAckNum := hcount
            have hmax' : dupAckMax ≤ sdr.dupAckNum + 1 := hmax
            rw [← hone] at hmax'
            exact absurd hmax' (by decide)
        · exact Nat.succ_ne_self _ hcount
      · rw [if_neg hdup]
        have hold : n < sdr.lastAcked := Nat.lt_of_le_of_ne (Nat.le_of_not_lt hnew) hdup
        constructor
        · intro h
          exact ⟨hold, (congrArg (fun r ↦ r.1.timer.running) h).symm⟩
        · rintro ⟨-, hstopped⟩
          rw [Sender.stopTimer, ← hstopped]

theorem setSender_of_getElem? (ht : srv.senders[i]? = some t) : srv.setSender i t = srv := by
  obtain ⟨hi, rfl⟩ := List.getElem?_eq_some_iff.mp ht
  rw [setSender, List.set_getElem_self]

theorem processACK_of_ignores (h : srv.IgnoresACK pkt peer) : srv.processACK pkt peer = srv := by
  cases peer with
  | none => rfl
  | some p =>
      cases hget : srv.getSender (some p) with
      | none => exact processACK_of_none pkt hget
      | some i =>
          obtain ⟨t, ht, -⟩ := exists_of_getSender hget
          have heq := (processACK_eq_self_iff t.sdr _).mpr (h i t hget ht)
          rw [processACK_of_getSender pkt hget ht, heq]
          exact setSender_of_getElem? ht

/-- A removal leaves the pool one entry shorter. -/
theorem Queued.not_perm_removeSender (h : srv.Queued) (hget : srv.getSender (some p) = some i)
    (ht : t.sdr.pReceiver = some p) :
    ¬ (srv.removeSender i t).pool.workers.Perm srv.pool.workers := by
  intro hperm
  have hmem : i ∈ srv.pool.workers := List.mem_of_find?_eq_some hget
  have hserves : srv.serves t.sdr.pReceiver i = true := by
    rw [ht]
    exact List.find?_some hget
  have hlen := ((h.counts.perm_remove (srv.serves t.sdr.pReceiver)).symm.trans hperm).length_eq
  rw [List.length_eraseP_of_mem hmem hserves] at hlen
  exact Nat.ne_of_lt (Nat.sub_lt (List.length_pos_of_mem hmem) Nat.one_pos) hlen

theorem Queued.ignoresACK (h : srv.Queued) (hsame : srv.Unchanged (srv.processACK pkt peer)) :
    srv.IgnoresACK pkt peer := by
  intro i t hget ht
  obtain ⟨p, rfl⟩ := exists_peer_of_getSender hget
  rw [processACK_of_getSender pkt hget ht] at hsame
  rw [← processACK_eq_self_iff]
  split at hsame
  · have hpeer : t.sdr.pReceiver = some p := by
      obtain ⟨u, hu, hpeer⟩ := exists_of_getSender hget
      rw [ht, Option.some.injEq] at hu
      rw [hu]
      exact hpeer
    exact absurd hsame.workers
      (h.not_perm_removeSender hget ((t.sdr.pReceiver_processACK _).trans hpeer))
  · next hkept =>
      have hlt : i < srv.senders.length := (List.getElem?_eq_some_iff.mp ht).1
      have hsender := hsame.senders i t ht
      rw [Server.setSender, List.getElem?_set_self hlt, Option.some.injEq] at hsender
      have hsdr : (t.sdr.processACK pkt.header.ackNum.toNat).1 = t.sdr :=
        congrArg SenderThread.sdr hsender
      exact Prod.ext hsdr (Bool.eq_false_of_not_eq_true hkept)

/-! ### `process_GET` -/

section Get

variable {getDataChunk : List UInt8 → Option ChunkData} {r : Server F × List (PeerRef × Packet)}

/-- The request changes nothing: the upload to the peer has not been fully sent, or there is
none and the pool is full. -/
def IgnoresGET (srv : Server F) (peer : Option PeerRef) : Prop :=
  match (srv.getSender peer).bind fun i ↦ srv.senders[i]?.map fun t ↦ (i, t) with
  | some (_, t) => t.sdr.lastSent ≠ t.sdr.pktNum
  | none => srv.pool.maxNum ≤ srv.pool.curNum

/-- What `process_GET` does: it drops a fully sent upload of the peer, adds a sender for it
if there is room, and does nothing while another upload is open. -/
theorem processGETChecked_cases
    (hr : srv.processGETChecked getDataChunk pkt peer = some r) :
    (srv.IgnoresGET peer ∧ r.1 = srv) ∨
    (∃ pkts num, srv.addSender peer pkts num = some r.1) ∨
    ∃ p i t, peer = some p ∧ srv.getSender (some p) = some i ∧ srv.senders[i]? = some t ∧
      t.sdr.pReceiver = some p ∧ t.sdr.lastSent = t.sdr.pktNum ∧
      (r.1 = srv.removeSender i t ∨
        ∃ pkts num, (srv.removeSender i t).addSender peer pkts num = some r.1) := by
  cases hfound : (srv.getSender peer).bind fun i ↦ srv.senders[i]?.map fun t ↦ (i, t) with
  | none =>
      rw [processGETChecked, hfound] at hr
      rcases openUpload_cases hr with ⟨hfull, heq⟩ | ⟨-, -, hadd⟩
      · refine .inl ⟨?_, congrArg Prod.fst heq⟩
        rw [IgnoresGET, hfound]
        exact hfull
      · exact .inr (.inl hadd)
  | some it =>
      obtain ⟨i, t⟩ := it
      rw [processGETChecked, hfound] at hr
      dsimp only at hr
      split at hr
      · next hsent =>
          obtain ⟨j, hget, hmap⟩ := Option.bind_eq_some_iff.mp hfound
          obtain ⟨u, ht, heq⟩ := Option.map_eq_some_iff.mp hmap
          cases heq
          obtain ⟨p, rfl⟩ := exists_peer_of_getSender hget
          obtain ⟨u, hu, hpeer⟩ := exists_of_getSender hget
          rw [ht, Option.some.injEq] at hu
          subst hu
          refine .inr (.inr ⟨p, i, t, rfl, hget, ht, hpeer, hsent, ?_⟩)
          rcases openUpload_cases hr with ⟨-, heq⟩ | ⟨-, -, hadd⟩
          · exact .inl (congrArg Prod.fst heq)
          · exact .inr hadd
      · next hbusy =>
          cases hr
          refine .inl ⟨?_, rfl⟩
          rw [IgnoresGET, hfound]
          exact hbusy

theorem Queued.processGETChecked (h : srv.Queued)
    (hr : srv.processGETChecked getDataChunk pkt peer = some r) : r.1.Queued := by
  rcases processGETChecked_cases hr with ⟨-, heq⟩ | ⟨_, _, hadd⟩ | ⟨p, i, t, -, -, -, -, -, heq | hadd⟩
  · rw [heq]
    exact h
  · exact (h.addSender hadd).1
  · rw [heq]
    exact h.removeSender i t
  · obtain ⟨_, _, hadd⟩ := hadd
    exact ((h.removeSender i t).addSender hadd).1

theorem Queued.touchesOnly_processGET (h : srv.Queued)
    (hr : srv.processGETChecked getDataChunk pkt peer = some r) : srv.TouchesOnly peer r.1 := by
  rcases processGETChecked_cases hr with ⟨-, heq⟩ | ⟨_, _, hadd⟩ |
    ⟨p, i, t, rfl, hget, -, hpeer, -, hrest⟩
  · rw [heq]
    exact .refl _ _
  · exact h.touchesOnly_addSender hadd
  · have hdrop := h.touchesOnly_removeSender (peerOf_of_getSender hget) hpeer
    rcases hrest with heq | ⟨_, _, hadd⟩
    · rw [heq]
      exact hdrop
    · exact hdrop.trans ((h.removeSender i t).touchesOnly_addSender hadd)

/-- A request that changes nothing is one of those. -/
theorem Queued.ignoresGET (h : srv.Queued)
    (hr : srv.processGETChecked getDataChunk pkt peer = some r) (hsame : srv.Unchanged r.1) :
    srv.IgnoresGET peer ∧ r.1 = srv := by
  rcases processGETChecked_cases hr with hignored | ⟨_, _, hadd⟩ |
    ⟨p, i, t, rfl, hget, -, hpeer, -, heq | ⟨_, _, hadd⟩⟩
  · exact hignored
  · have hlen := hsame.workers.length_eq
    rw [(h.addSender hadd).2.1, List.length_append, List.length_singleton] at hlen
    exact absurd hlen (Nat.succ_ne_self _)
  · rw [heq] at hsame
    exact absurd hsame.workers (h.not_perm_removeSender hget hpeer)
  · -- the entry added is a new one
    have hmem : (srv.removeSender i t).senders.length ∈ r.1.pool.workers := by
      rw [((h.removeSender i t).addSender hadd).2.1]
      exact List.mem_append_right _ (List.mem_singleton_self _)
    have hlt := h.added _ (hsame.workers.mem_iff.mp hmem)
    rw [show (srv.removeSender i t).senders.length = srv.senders.length from List.length_set ..] at hlt
    exact absurd hlt (Nat.lt_irrefl _)

theorem processGET_of_ignores (h : srv.IgnoresGET peer)
    (hr : srv.processGETChecked getDataChunk pkt peer = some r) : r.1 = srv := by
  rw [IgnoresGET] at h
  cases hfound : (srv.getSender peer).bind fun i ↦ srv.senders[i]?.map fun t ↦ (i, t) with
  | none =>
      rw [processGETChecked, hfound] at hr
      rw [hfound] at h
      rcases openUpload_cases hr with ⟨-, heq⟩ | ⟨hroom, -⟩
      · exact congrArg Prod.fst heq
      · exact absurd h (Int.not_le.mpr hroom)
  | some it =>
      rw [processGETChecked, hfound] at hr
      rw [hfound] at h
      dsimp only at hr
      rw [if_neg h] at hr
      cases hr
      rfl

end Get

end Server

/-! ## Downloads -/

namespace Client

variable {c c' : Client} {peer : Option PeerRef} {pkt : Packet} {p : PeerRef}
  {shahash : List UInt8 → List UInt8} {acks : List Packet}

/-- The receivers of other peers are as they were, and so are all chunks but that of the
receiver of `peer`, and the holder entries of other peers. -/
structure TouchesOnly (c : Client) (peer : Option PeerRef) (c' : Client) : Prop where
  receivers : ∀ q, some q ≠ peer →
    getReceiver c'.receiverPool (some q) = getReceiver c.receiverPool (some q)
  data : ∀ ref, (∀ rcvr ∈ getReceiver c.receiverPool peer, rcvr.chunk ≠ ref) →
    (c'.chunks ref).data = (c.chunks ref).data
  cState : ∀ ref, (∀ rcvr ∈ getReceiver c.receiverPool peer, rcvr.chunk ≠ ref) →
    (c'.chunks ref).cState = (c.chunks ref).cState
  holders : ∀ ref, (c'.chunks ref).holders.filter (fun h ↦ h ≠ peer) =
    (c.chunks ref).holders.filter fun h ↦ h ≠ peer
  sha1 : ∀ ref, (c'.chunks ref).sha1 = (c.chunks ref).sha1
  id : ∀ ref, (c'.chunks ref).id = (c.chunks ref).id
  maxNum : c'.receiverPool.maxNum = c.receiverPool.maxNum
  down : c'.downChunks = c.downChunks
  done : c'.doneChunks = c.doneChunks

theorem TouchesOnly.refl (c : Client) (peer : Option PeerRef) : c.TouchesOnly peer c :=
  ⟨fun _ _ ↦ rfl, fun _ _ ↦ rfl, fun _ _ ↦ rfl, fun _ ↦ rfl, fun _ ↦ rfl, fun _ ↦ rfl, rfl, rfl, rfl⟩

/-! ### `process_IHAVE` -/

/-- No hash the packet lists is one of a chunk still to be downloaded. -/
def IgnoresIHAVE (c : Client) (pkt : Packet) : Prop :=
  ∀ iHave ∈ pkt2chunks pkt .ihave, ∀ x ∈ iHave, containsChunk c.chunks c.downChunks x.hash = none

theorem touchesOnly_processIHAVE (h : c.processIHAVE pkt peer = some c') : c.TouchesOnly peer c' := by
  obtain ⟨hsame, hdown, hdone, hpool⟩ := processIHAVE_frame h
  obtain ⟨iHave, hpkt, -⟩ := Option.map_eq_some_iff.mp h
  refine ⟨fun q _ ↦ by rw [hpool], fun ref _ ↦ hsame.data ref, fun ref _ ↦ hsame.cState ref, ?_,
    hsame.sha1, hsame.id, by rw [hpool], hdown, hdone⟩
  intro ref
  rw [holders_processIHAVE hpkt h, List.filter_append]
  simp

theorem processIHAVE_of_ignores (hign : c.IgnoresIHAVE pkt) (h : c.processIHAVE pkt peer = some c') :
    c' = c := by
  obtain ⟨iHave, hpkt, rfl⟩ := Option.map_eq_some_iff.mp h
  have hfold : ∀ l : List ChunkT,
      (∀ x ∈ l, containsChunk c.chunks c.downChunks x.hash = none) →
      l.foldl (fun store x ↦ addHolder store c.downChunks x.hash peer) c.chunks = c.chunks := by
    intro l hl
    induction l with
    | nil => rfl
    | cons x l ih =>
        have hx : addHolder c.chunks c.downChunks x.hash peer = c.chunks := by
          rw [addHolder, hl x (List.mem_cons_self ..)]
        rw [List.foldl_cons, hx]
        exact ih fun y hy ↦ hl y (List.mem_cons_of_mem _ hy)
  rw [hfold iHave (hign iHave hpkt)]

/-- If no other peer's holder entries are to change, the packet is one of those. -/
theorem ignoresIHAVE {keep : Option PeerRef → Bool} (hkeep : keep peer = true)
    (h : c.processIHAVE pkt peer = some c')
    (hsame : ∀ ref, (c'.chunks ref).holders.filter keep = (c.chunks ref).holders.filter keep) :
    c.IgnoresIHAVE pkt := by
  intro iHave hpkt x hx
  by_contra hfound
  obtain ⟨ref, href⟩ := Option.ne_none_iff_exists'.mp hfound
  have hholders := hsame ref
  rw [holders_processIHAVE hpkt h, List.filter_append, List.filter_replicate_of_pos hkeep,
    List.append_right_eq_self, List.replicate_eq_nil_iff, List.countP_eq_zero] at hholders
  exact hholders x hx (decide_eq_true href)

/-! ### `process_DATA` -/

/-- The packet changes nothing: there is no receiver for the peer, or it waits for another
packet and is not complete. -/
def IgnoresDATA (c : Client) (pkt : Packet) (peer : Option PeerRef) : Prop :=
  ∀ rcvr ∈ getReceiver c.receiverPool peer, ¬ rcvr.Expects pkt ∧ ¬ rcvr.Complete

/-- With the packet the receiver has the whole chunk and its data is right, but the record
found by its hash is another one, which is not finished. -/
def MarksOther (shahash : List UInt8 → List UInt8) (c : Client) (pkt : Packet)
    (peer : Option PeerRef) : Prop :=
  ∃ rcvr ∈ getReceiver c.receiverPool peer,
    (∃ r, containsChunk c.chunks c.downChunks (c.chunks rcvr.chunk).hash = some r ∧
      r ≠ rcvr.chunk ∧ (c.chunks r).cState ≠ .finished) ∧
    (rcvr.Ends pkt ∧ c.Passes shahash rcvr pkt ∨
      -- a receiver that is complete already is removed by any packet
      ¬ rcvr.Expects pkt ∧ rcvr.Complete ∧
        checkChunk shahash (c.chunks rcvr.chunk).data (c.chunks rcvr.chunk).sha1 = true)

/-- Marking a chunk `FINISHED` marks no other record, unless one that is not finished is
found by the hash. -/
theorem cState_updateState_finished_iff (store : ChunkStore) (down : List ChunkRef)
    (chunk : ChunkRef) :
    (∀ ref, chunk ≠ ref →
        (updateState store down chunk .finished ref).cState = (store ref).cState) ↔
      ¬ ∃ r, containsChunk store down (store chunk).hash = some r ∧ r ≠ chunk ∧
        (store r).cState ≠ .finished := by
  constructor
  · rintro hsame ⟨r, hfound, hne, hopen⟩
    apply hopen
    rw [← hsame r (Ne.symm hne)]
    exact cState_updateState_finished hfound
  · intro hnone ref hne
    rcases updateState_cases store down chunk .finished with heq | ⟨r, hfound, -, heq⟩
    · rw [heq]
    · by_cases href : ref = r
      · subst href
        have hfin : (store ref).cState = .finished := by
          by_contra hopen
          exact hnone ⟨ref, hfound, Ne.symm hne, hopen⟩
        rw [updateState_of_finished hfin]
      · rw [heq, Function.update_of_ne href]

/-- When the chunk is complete, and right, behind the packet. -/
theorem complete_and_right_iff {rcvr : Receiver} {r' : Receiving}
    (hstore : rcvr.store (c.chunks rcvr.chunk).data pkt = some (r'.rcvr, r'.chunk)) :
    r'.rcvr.Complete ∧ checkChunk shahash r'.chunk (c.chunks rcvr.chunk).sha1 = true ↔
      rcvr.Ends pkt ∧ c.Passes shahash rcvr pkt ∨
        ¬ rcvr.Expects pkt ∧ rcvr.Complete ∧
          checkChunk shahash (c.chunks rcvr.chunk).data (c.chunks rcvr.chunk).sha1 = true := by
  by_cases hexp : rcvr.Expects pkt
  · have hdata : c.assembled rcvr pkt = some r'.chunk := (store_iff_assembled hexp).mp ⟨_, hstore⟩
    rw [Receiver.Complete, Receiver.lastRcvd_of_store hstore hexp, Receiver.Ends, Passes, hdata]
    simp [hexp]
  · rw [Receiver.store_of_ne hexp, Option.some.injEq, Prod.mk.injEq] at hstore
    rw [← hstore.1, ← hstore.2, Receiver.Ends]
    simp [hexp]

/-- The states of other chunks are as they were exactly if no other record is marked. -/
theorem cState_processDATA_iff (hpool : c.receiverPool.Ok)
    (h : c.processDATA shahash pkt peer = some (c', acks)) :
    (∀ ref, (∀ rcvr ∈ getReceiver c.receiverPool peer, rcvr.chunk ≠ ref) →
        (c'.chunks ref).cState = (c.chunks ref).cState) ↔ ¬ c.MarksOther shahash pkt peer := by
  cases hget : getReceiver c.receiverPool peer with
  | none =>
      rw [processDATA, hget] at h
      cases h
      simp [MarksOther, hget]
  | some rcvr =>
      obtain ⟨p, rfl⟩ := exists_peer_of_getReceiver hget
      obtain ⟨r', hstore, hopened, -, -, hchunks⟩ := processDATA_of_get hpool hget h
      have hstate := cState_setData c rcvr.chunk r'.chunk
      have hfound : containsChunk (c.setData rcvr.chunk r'.chunk).chunks c.downChunks
          ((c.setData rcvr.chunk r'.chunk).chunks rcvr.chunk).hash =
            containsChunk c.chunks c.downChunks (c.chunks rcvr.chunk).hash := by
        rw [containsChunk_congr (sha1_setData c rcvr.chunk r'.chunk), ChunkT.hash, sha1_setData,
          ← ChunkT.hash]
      have hmarks : c.MarksOther shahash pkt (some p) ↔
          (∃ r, containsChunk c.chunks c.downChunks (c.chunks rcvr.chunk).hash = some r ∧
            r ≠ rcvr.chunk ∧ (c.chunks r).cState ≠ .finished) ∧
          r'.rcvr.Complete ∧ checkChunk shahash r'.chunk (c.chunks rcvr.chunk).sha1 = true := by
        rw [complete_and_right_iff hstore, MarksOther, hget]
        simp
      simp only [Option.mem_def, Option.some.injEq, forall_eq']
      rw [hmarks, hchunks, storeAfter]
      by_cases hcomplete : r'.rcvr.Complete
      · rw [hopened, decide_eq_true hcomplete, Bool.not_true, if_neg Bool.false_ne_true]
        by_cases hright : checkChunk shahash r'.chunk (c.chunks rcvr.chunk).sha1 = true
        · have hiff := cState_updateState_finished_iff (c.setData rcvr.chunk r'.chunk).chunks
            c.downChunks rcvr.chunk
          simp only [hstate, hfound] at hiff
          rw [if_pos hright, hiff]
          simp [hcomplete, hright]
        · rw [if_neg hright, updateState_ready]
          simp [hstate, hright]
      · rw [hopened, decide_eq_false hcomplete, Bool.not_false, if_pos rfl]
        simp [hstate, hcomplete]

/-- `process_DATA` keeps to the entries of the peer exactly if it marks no other record. -/
theorem touchesOnly_processDATA_iff (hpool : c.receiverPool.Ok)
    (h : c.processDATA shahash pkt peer = some (c', acks)) :
    c.TouchesOnly peer c' ↔ ¬ c.MarksOther shahash pkt peer := by
  rw [← cState_processDATA_iff hpool h]
  refine ⟨TouchesOnly.cState, fun hstate ↦ ?_⟩
  rcases processDATA_cases hpool h with rfl | ⟨p, rcvr, r', rfl, hget, -, -, -, hframe, -⟩
  · exact .refl _ _
  · exact ⟨fun q hq ↦ hframe.others q fun hpq ↦ hq (congrArg some hpq.symm),
      fun ref href ↦ hframe.data ref (Ne.symm (href rcvr hget)), hstate,
      fun ref ↦ by rw [hframe.holders], hframe.sha1, hframe.id, hframe.maxNum, hframe.down,
      hframe.done⟩

theorem processDATA_of_ignores (hign : c.IgnoresDATA pkt peer)
    (h : c.processDATA shahash pkt peer = some (c', acks)) : c' = c := by
  rw [processDATA] at h
  cases hget : getReceiver c.receiverPool peer with
  | none =>
      rw [hget] at h
      cases h
      rfl
  | some rcvr =>
      obtain ⟨hexp, hcomplete⟩ := hign rcvr hget
      rw [hget] at h
      simp only [Receiver.store, if_neg hexp, Option.map_some, if_neg hcomplete, Option.some.injEq,
        Prod.mk.injEq] at h
      obtain ⟨rfl, -⟩ := h
      obtain ⟨p, rfl⟩ := exists_peer_of_getReceiver hget
      have hfind : Keyed.find Receiver.pSender c.receiverPool.workers rcvr.pSender = some rcvr := by
        rw [(mem_of_getReceiver hget).2]
        exact hget
      have hworkers : c.receiverPool.set rcvr = c.receiverPool := by
        rw [ReceiverPool.set, Keyed.replace_of_find hfind]
      have hset : c.setReceiver rcvr = c := by
        show { c with receiverPool := c.receiverPool.set rcvr } = c
        rw [hworkers]
      rw [hset, setData, Function.update_eq_self]

/-- If the receiver of the peer is not to change, the packet is one of those. -/
theorem ignoresDATA (hpool : c.receiverPool.Ok)
    (h : c.processDATA shahash pkt peer = some (c', acks))
    (hsame : getReceiver c'.receiverPool peer = getReceiver c.receiverPool peer) :
    c.IgnoresDATA pkt peer := by
  intro rcvr hget
  obtain ⟨p, rfl⟩ := exists_peer_of_getReceiver hget
  obtain ⟨r', hstore, hopened, hconn, -, -⟩ := processDATA_of_get hpool hget h
  have hkept : r'.opened = true ∧ r'.rcvr = rcvr := by
    rw [hconn.get, Option.mem_def.mp hget] at hsame
    split at hsame
    · next hopen => exact ⟨hopen, Option.some.inj hsame⟩
    · cases hsame
  rw [hkept.2] at hstore
  constructor
  · intro hexp
    have hcount := Receiver.lastRcvd_of_store hstore hexp
    rw [Receiver.store, if_pos hexp] at hstore
    obtain ⟨data, -, heq⟩ := Option.map_eq_some_iff.mp hstore
    have hnext : rcvr.nextExpected + 1 = rcvr.nextExpected :=
      congrArg (fun r ↦ r.1.nextExpected) heq
    exact Nat.succ_ne_self _ hnext
  · intro hcomplete
    rw [hopened, hkept.2] at hkept
    simp [hcomplete] at hkept

end Client

/-! ## The peer -/

namespace Peer

variable {cfg : Config} {s s' : Peer F} {type : PktType} {pkt : Packet} {peer : Option PeerRef}
  {sent : List (PeerRef × Packet)}

/-- The queues and counts of the two pools agree. -/
structure Intact (s : Peer F) : Prop where
  server : s.server.Queued
  receiverPool : s.client.receiverPool.Ok

/-- The configured peer whose address is exactly the given one. -/
def peerAt (peers : List SockAddr) (addr : SockAddr) : Option PeerRef :=
  peers.findIdx? fun p ↦ p == addr

/-- A step changes at most the entries of peer `q`; without a peer it leaves the two pools
and all holder lists as they are. -/
def Framed (s : Peer F) (q : Option PeerRef) (s' : Peer F) : Prop :=
  match q with
  | some q => s.server.TouchesOnly (some q) s'.server ∧ s.client.TouchesOnly (some q) s'.client
  | none => s'.server = s.server ∧ s'.client.receiverPool = s.client.receiverPool ∧
      ∀ ref, (s'.client.chunks ref).holders = (s.client.chunks ref).holders

/-- The handler of the packet changes nothing. -/
def Ignores (s : Peer F) (type : PktType) (pkt : Packet) (peer : Option PeerRef) : Prop :=
  match type with
  | .whohas | .denied => True
  | .ihave => s.client.IgnoresIHAVE pkt
  | .get => s.server.IgnoresGET peer
  | .ack => s.server.IgnoresACK pkt peer
  | .data => s.client.IgnoresDATA pkt peer

/-- The handler of the packet marks a chunk that is not that of the peer's receiver. -/
def MarksOther (cfg : Config) (s : Peer F) (type : PktType) (pkt : Packet) (peer : Option PeerRef) :
    Prop :=
  match type with
  | .data => s.client.MarksOther cfg.shahash pkt peer
  | _ => False

/-- Each handler keeps the pools intact, whoever sends the packet. -/
theorem Intact.handle (h : s.Intact) (hr : s.handle cfg type pkt peer = some (s', sent)) :
    s'.Intact := by
  cases type with
  | whohas =>
      obtain ⟨_, -, heq⟩ := Option.map_eq_some_iff.mp hr
      cases heq
      exact h
  | ihave =>
      obtain ⟨c, hc, heq⟩ := Option.map_eq_some_iff.mp hr
      cases heq
      obtain ⟨-, -, -, hpool⟩ := Client.processIHAVE_frame hc
      exact ⟨h.server, by rw [hpool]; exact h.receiverPool⟩
  | get =>
      obtain ⟨r, hsrv, heq⟩ := Option.map_eq_some_iff.mp hr
      cases heq
      exact ⟨h.server.processGETChecked hsrv, h.receiverPool⟩
  | ack =>
      cases hr
      exact ⟨h.server.processACK pkt peer, h.receiverPool⟩
  | data =>
      obtain ⟨⟨c, acks⟩, hc, heq⟩ := Option.map_eq_some_iff.mp hr
      cases heq
      refine ⟨h.server, ?_⟩
      rcases Client.processDATA_cases h.receiverPool hc with rfl | ⟨_, _, _, -, -, -, -, -, hframe, -⟩
      · exact h.receiverPool
      · exact hframe.pool
  | denied =>
      cases hr
      exact h

/-- A handler given a peer keeps to its entries, unless it marks another chunk than that of
the peer's receiver. -/
theorem Intact.framed_handle_iff {p : PeerRef} (h : s.Intact)
    (hr : s.handle cfg type pkt (some p) = some (s', sent)) :
    s.Framed (some p) s' ↔ ¬ s.MarksOther cfg type pkt (some p) := by
  cases type with
  | whohas =>
      obtain ⟨_, -, heq⟩ := Option.map_eq_some_iff.mp hr
      cases heq
      exact ⟨fun _ hc ↦ hc, fun _ ↦ ⟨.refl _ _, .refl _ _⟩⟩
  | ihave =>
      obtain ⟨c, hc, heq⟩ := Option.map_eq_some_iff.mp hr
      cases heq
      exact ⟨fun _ hc ↦ hc, fun _ ↦ ⟨.refl _ _, Client.touchesOnly_processIHAVE hc⟩⟩
  | get =>
      obtain ⟨r, hsrv, heq⟩ := Option.map_eq_some_iff.mp hr
      cases heq
      exact ⟨fun _ hc ↦ hc, fun _ ↦ ⟨h.server.touchesOnly_processGET hsrv, .refl _ _⟩⟩
  | ack =>
      cases hr
      exact ⟨fun _ hc ↦ hc, fun _ ↦ ⟨h.server.touchesOnly_processACK pkt p, .refl _ _⟩⟩
  | data =>
      obtain ⟨⟨c, acks⟩, hc, heq⟩ := Option.map_eq_some_iff.mp hr
      cases heq
      rw [MarksOther, ← Client.touchesOnly_processDATA_iff h.receiverPool hc]
      exact ⟨And.right, fun htouch ↦ ⟨.refl _ _, htouch⟩⟩
  | denied =>
      cases hr
      exact ⟨fun _ hc ↦ hc, fun _ ↦ ⟨.refl _ _, .refl _ _⟩⟩

/-- A packet its handler ignores leaves the peer as it was. -/
theorem eq_of_ignores (hign : s.Ignores type pkt peer)
    (hr : s.handle cfg type pkt peer = some (s', sent)) : s' = s := by
  cases type with
  | whohas =>
      obtain ⟨_, -, heq⟩ := Option.map_eq_some_iff.mp hr
      cases heq
      rfl
  | ihave =>
      obtain ⟨c, hc, heq⟩ := Option.map_eq_some_iff.mp hr
      cases heq
      rw [Client.processIHAVE_of_ignores hign hc]
  | get =>
      obtain ⟨r, hsrv, heq⟩ := Option.map_eq_some_iff.mp hr
      cases heq
      rw [Server.processGET_of_ignores hign hsrv]
  | ack =>
      cases hr
      rw [Server.processACK_of_ignores hign]
  | data =>
      obtain ⟨⟨c, acks⟩, hc, heq⟩ := Option.map_eq_some_iff.mp hr
      cases heq
      rw [Client.processDATA_of_ignores hign hc]
  | denied =>
      cases hr
      rfl

/-- If besides `peer`'s no entries but another peer's may change, uploads do not change. -/
theorem Framed.unchanged {q : Option PeerRef} (h : s.Framed q s') (hne : q = none ∨ q ≠ peer)
    (htouch : s.server.TouchesOnly peer s'.server) : s.server.Unchanged s'.server := by
  cases q with
  | none =>
      rw [h.1]
      exact ⟨fun _ _ ht ↦ ht, .refl _⟩
  | some q =>
      rcases hne with ⟨⟨⟩⟩ | hne
      exact h.1.both htouch hne

/-- A handler given one peer, or none, that changes at most the entries of another, or none,
ignores the packet. -/
theorem Intact.ignores {q : Option PeerRef} (h : s.Intact) (hne : q = none ∨ q ≠ peer)
    (hr : s.handle cfg type pkt peer = some (s', sent)) (hframed : s.Framed q s') :
    s.Ignores type pkt peer := by
  cases type with
  | whohas => trivial
  | ihave =>
      obtain ⟨c, hc, heq⟩ := Option.map_eq_some_iff.mp hr
      cases heq
      cases q with
      | none =>
          have hall : ∀ ref, ((c.chunks ref).holders.filter fun _ ↦ true) =
              (s.client.chunks ref).holders.filter fun _ ↦ true := fun ref ↦ by rw [hframed.2.2]
          exact Client.ignoresIHAVE rfl hc hall
      | some q =>
          rcases hne with ⟨⟨⟩⟩ | hne
          exact Client.ignoresIHAVE (decide_eq_true (Ne.symm hne)) hc hframed.2.holders
  | get =>
      obtain ⟨r, hsrv, heq⟩ := Option.map_eq_some_iff.mp hr
      cases heq
      have hsame := hframed.unchanged hne (h.server.touchesOnly_processGET hsrv)
      exact (h.server.ignoresGET hsrv hsame).1
  | ack =>
      cases hr
      cases peer with
      | none => exact fun _ _ hget ↦ nomatch hget
      | some p =>
          exact h.server.ignoresACK (hframed.unchanged hne (h.server.touchesOnly_processACK pkt p))
  | data =>
      obtain ⟨⟨c, acks⟩, hc, heq⟩ := Option.map_eq_some_iff.mp hr
      cases heq
      refine Client.ignoresDATA h.receiverPool hc ?_
      cases q with
      | none => rw [show c.receiverPool = _ from hframed.2.1]
      | some q =>
          rcases hne with ⟨⟨⟩⟩ | hne
          cases peer with
          | none => rfl
          | some p => exact hframed.2.receivers p (Ne.symm hne)
  | denied => trivial

/-- Every run keeps the pools intact, whatever arrives from whomever. -/
theorem intact_of_reaches (h : Machine.Reaches (step cfg) (start cfg) s) : s.Intact := by
  refine h.invariant ?_ ⟨Server.queued_init cfg.maxConn, rfl, List.nodup_nil⟩
  intro s e s' hs hstep
  cases e with
  | packet type pkt peer =>
      obtain ⟨⟨s', sent⟩, hr, rfl⟩ := Option.map_eq_some_iff.mp hstep
      exact hs.handle hr
  | download lines =>
      cases hstep
      exact ⟨hs.server, rfl, List.nodup_nil⟩
  | lookAt =>
      cases hstep
      exact ⟨hs.server, Client.ok_lookAt hs.receiverPool⟩
  | thread i e =>
      cases e with
      | ack n => cases hstep
      | _ =>
          obtain ⟨srv, hsrv, rfl⟩ := Option.map_eq_some_iff.mp hstep
          exact ⟨hs.server.thread hsrv, hs.receiverPool⟩

/-- If the peer `get_peer` returns has the address, it is the one with that address. -/
theorem getPeer_eq_peerAt_iff {peers : List SockAddr} {addr : SockAddr} {p : PeerRef}
    (hget : getPeer peers addr = some p) : peerAt peers addr = some p ↔ peers[p]? = some addr := by
  obtain ⟨hlt, -, hfirst⟩ := List.findIdx?_eq_some_iff_getElem.mp hget
  rw [peerAt, List.findIdx?_eq_some_iff_getElem, List.getElem?_eq_some_iff]
  constructor
  · rintro ⟨_, hp, -⟩
    exact ⟨hlt, eq_of_beq hp⟩
  · rintro ⟨_, hp⟩
    refine ⟨hlt, beq_iff_eq.mpr hp, fun j hj hc ↦ hfirst j hj ?_⟩
    rw [eq_of_beq hc]
    exact beq_self_eq_true _

theorem Framed.refl (s : Peer F) (q : Option PeerRef) : s.Framed q s := by
  cases q with
  | none => exact ⟨rfl, rfl, fun _ ↦ rfl⟩
  | some q => exact ⟨.refl _ _, .refl _ _⟩

/-- A packet changes at most the entries of the configured peer it comes from exactly if
`get_peer` finds that peer and no other chunk than that of its receiver is marked, or the
handler of the packet ignores it. -/
theorem processPacket_framed_iff (h : s.Intact) {addr : SockAddr}
    (hr : s.processPacket cfg pkt addr = some (s', sent)) :
    s.Framed (peerAt cfg.peers addr) s' ↔
      (∃ p, getPeer cfg.peers addr = some p ∧ cfg.peers[p]? = some addr ∧
        ∀ type, pktParseType pkt.header.packetType = some type →
          ¬ s.MarksOther cfg type pkt (some p)) ∨
      (pkt.header.correct = true → ∀ type, pktParseType pkt.header.packetType = some type →
        s.Ignores type pkt (getPeer cfg.peers addr)) := by
  have hdropped : s' = s ∧ (pkt.header.correct = true →
        pktParseType pkt.header.packetType = none) ∨
      ∃ type, pkt.header.correct = true ∧ pktParseType pkt.header.packetType = some type ∧
        s.handle cfg type pkt (getPeer cfg.peers addr) = some (s', sent) := by
    rw [processPacket] at hr
    split at hr
    · next hcorrect =>
        split at hr
        · next type htype => exact .inr ⟨type, hcorrect, htype, hr⟩
        · next htype =>
            cases hr
            exact .inl ⟨rfl, fun _ ↦ htype⟩
    · next hbad =>
        cases hr
        exact .inl ⟨rfl, fun hc ↦ absurd hc hbad⟩
  rcases hdropped with ⟨rfl, hnone⟩ | ⟨type, hcorrect, htype, hhandle⟩
  · refine iff_of_true (.refl _ _) (.inr fun hcorrect type htype ↦ ?_)
    rw [hnone hcorrect] at htype
    cases htype
  constructor
  · intro hframed
    rw [or_iff_not_imp_left]
    intro hother _ type' htype'
    rw [htype, Option.some.injEq] at htype'
    subst htype'
    refine h.ignores ?_ hhandle hframed
    cases hat : peerAt cfg.peers addr with
    | none => exact .inl rfl
    | some q =>
        refine .inr fun hget ↦ hother ⟨q, hget.symm, ?_, ?_⟩
        · exact (getPeer_eq_peerAt_iff hget.symm).mp hat
        · intro type' htype'
          rw [htype, Option.some.injEq] at htype'
          subst htype'
          rw [hat] at hframed
          rw [← hget] at hhandle
          exact (h.framed_handle_iff hhandle).mp hframed
  · rintro (⟨p, hget, haddr, hmarks⟩ | hign)
    · rw [(getPeer_eq_peerAt_iff hget).mpr haddr]
      rw [hget] at hhandle
      exact (h.framed_handle_iff hhandle).mpr (hmarks type htype)
    · rw [eq_of_ignores (hign hcorrect type htype) hhandle]
      exact .refl _ _

/-- Two peers on one port, of which the second asks for a chunk. -/
def samePort : Config := { oneSlot with peers := [⟨1, 80⟩, ⟨2, 80⟩] }

/-- The first one's request opens an upload for the first. -/
theorem processPacket_framed_iff_first : ∃ s' : Peer ℚ,
    (start samePort).processPacket samePort (makeGET (List.replicate 20 0)) ⟨1, 80⟩ = some (s', []) ∧
      (start samePort).Framed (some 0) s' := by
  have hr : (start samePort : Peer ℚ).processPacket samePort (makeGET (List.replicate 20 0)) ⟨1, 80⟩ =
      some (_, []) := rfl
  refine ⟨_, hr, (processPacket_framed_iff (intact_of_reaches (.refl _)) hr).mpr
    (.inl ⟨0, rfl, rfl, ?_⟩)⟩
  rintro type ⟨⟩ hmarks
  exact hmarks

/-- The second one's opens one for the first too. -/
theorem processPacket_not_framed : ¬ ∀ (cfg : Config) (s s' : Peer ℚ) (pkt : Packet)
    (addr : SockAddr) (sent : List (PeerRef × Packet)), cfg.peers.Nodup →
      Machine.Reaches (step cfg) (start cfg) s → pkt.header.correct = true →
      s.processPacket cfg pkt addr = some (s', sent) → s.Framed (peerAt cfg.peers addr) s' := by
  intro h
  have hr : (start samePort : Peer ℚ).processPacket samePort (makeGET (List.replicate 20 0)) ⟨2, 80⟩ =
      some (_, []) := rfl
  have hframed := h samePort _ _ _ _ _ (by decide) (.refl _) rfl hr
  have hperm := hframed.1.workers
  exact absurd hperm.length_eq (by decide)

end Peer

end BitTorrent
