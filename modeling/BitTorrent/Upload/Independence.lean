import BitTorrent.Tracker.DataPackets
import BitTorrent.Upload.Serving

/-!
# Uploads to different peers

All uploads of a serving peer share one pool, one counter and one queue, and
`remove_sender` rotates that queue while it searches.  Still an event that belongs
to the upload of one peer commutes with an event that belongs to the upload of
another.  Each event is cut into what it reads, its own sender only, and what it
writes; the writes of two events meet in the pool, where two removals of different
workers commute up to the order of the queue.
-/

namespace BitTorrent

variable {F : Type} [NatCast F] [Add F] [Div F] [LE F] [DecidableLE F] [TruncU32 F]

/-- What can happen to the uploads of a serving peer. -/
inductive UploadEvent where
  /-- `process_ACK` is called with a packet of a peer. -/
  | ack (peer : PeerRef) (pkt : Packet)
  /-- One iteration of `process_sender`, in the thread of sender `i`. -/
  | iterate (i : SenderRef)
  /-- The timeout of packet `id` fires in a thread of sender `i`. -/
  | timeout (i : SenderRef) (id : Nat)

/-- What an event does to its sender: the sender's new state, whether it leaves the
pool, and the packets it sends. -/
structure Outcome (F : Type) where
  thread : SenderThread F
  removed : Bool
  pkts : List Packet

/-- What an event makes of the sender it works on, if it is enabled there. -/
def UploadEvent.outcome (e : UploadEvent) (t : SenderThread F) : Option (Outcome F) :=
  match e with
  | .ack _ pkt =>
      let after := t.sdr.processACK pkt.header.ackNum.toNat
      some
        { thread := { t with sdr := if after.2 then after.1.stopTimer else after.1 }
          removed := after.2
          pkts := [] }
  | .iterate _ =>
      if t.phase = .looping then
        some { thread := t.iterate.1, removed := false, pkts := t.iterate.2 }
      else none
  | .timeout _ id =>
      if id ∈ t.timeouts then some { thread := t.timeout id, removed := false, pkts := [] }
      else none

theorem Sender.pReceiver_processACK (sdr : Sender F) (n : Nat) :
    (sdr.processACK n).1.pReceiver = sdr.pReceiver := by
  rcases sdr.processACK_cases n with ⟨-, -, -, h⟩ | ⟨-, -, h⟩
  · rw [h]
    rfl
  · cases h with
    | ignored h => exact h.pReceiver
    | advanced _ _ h => exact h.pReceiver
    | retransmitted _ _ h => exact h.pReceiver

/-- No event changes the peer of a sender. -/
theorem UploadEvent.pReceiver_outcome {e : UploadEvent} {t : SenderThread F} {out : Outcome F}
    (h : e.outcome t = some out) : out.thread.sdr.pReceiver = t.sdr.pReceiver := by
  cases e with
  | ack p pkt =>
      cases h
      show (if _ then Sender.stopTimer _ else _).pReceiver = _
      split <;> exact t.sdr.pReceiver_processACK _
  | iterate i =>
      simp only [outcome, Option.ite_none_right_eq_some, Option.some.injEq] at h
      obtain ⟨hphase, rfl⟩ := h
      have hstep : Sending.step { toSenderThread := t, pooled := true } .iterate = some _ :=
        if_pos hphase
      exact (Sending.step_frame hstep).2.2
  | timeout i id =>
      simp only [outcome, Option.ite_none_right_eq_some, Option.some.injEq] at h
      obtain ⟨hid, rfl⟩ := h
      have hstep : Sending.step { toSenderThread := t, pooled := true } (.timeout id) = some _ :=
        if_pos hid
      exact (Sending.step_frame hstep).2.2

/-- Only an ACK removes a sender. -/
theorem UploadEvent.eq_ack_of_removed {e : UploadEvent} {t : SenderThread F} {out : Outcome F}
    (h : e.outcome t = some out) (hout : out.removed = true) : ∃ p pkt, e = .ack p pkt := by
  cases e with
  | ack p pkt => exact ⟨p, pkt, rfl⟩
  | iterate i =>
      simp only [outcome, Option.ite_none_right_eq_some, Option.some.injEq] at h
      obtain ⟨-, rfl⟩ := h
      cases hout
  | timeout i id =>
      simp only [outcome, Option.ite_none_right_eq_some, Option.some.injEq] at h
      obtain ⟨-, rfl⟩ := h
      cases hout

namespace Server

set_option linter.unusedSectionVars false

variable {srv : Server F} {e e₁ e₂ : UploadEvent} {p : PeerRef} {i j : SenderRef}
  {t : SenderThread F}

/-- The steps of the uploads, with the packets they send. -/
def act (srv : Server F) : UploadEvent → Option (Server F × List (PeerRef × Packet))
  | .ack p pkt => some (srv.processACK pkt (some p), [])
  | .iterate i => srv.senders[i]?.bind fun t ↦
      if t.phase = .looping then
        some (srv.setSender i t.iterate.1, t.iterate.2.flatMap (sendPKT t.sdr.pReceiver))
      else none
  | .timeout i id => srv.senders[i]?.bind fun t ↦
      if id ∈ t.timeouts then some (srv.setSender i (t.timeout id), []) else none

/-- One event after another, with all the packets they send. -/
def actTwice (srv : Server F) (e₁ e₂ : UploadEvent) :
    Option (Server F × List (PeerRef × Packet)) :=
  (srv.act e₁).bind fun r ↦ (r.1.act e₂).map fun r' ↦ (r'.1, r.2 ++ r'.2)

/-- The peer whose upload an event belongs to. -/
def eventPeer (srv : Server F) : UploadEvent → Option PeerRef
  | .ack p _ => some p
  | .iterate i | .timeout i _ => srv.peerOf i

/-- The pool counts its senders, and has at most one for each peer. -/
structure OnePerPeer (srv : Server F) : Prop where
  counts : srv.pool.Counts
  distinct : ∀ p, Keyed.AtMostOne (srv.serves (some p)) srv.pool.workers

/-- Two outcomes a peer at the other end of the network cannot tell apart: they differ
at most in the order of the workers and in how packets to different peers interleave. -/
structure Alike (r r' : Server F × List (PeerRef × Packet)) : Prop where
  senders : r.1.senders = r'.1.senders
  getSender : ∀ p, r.1.getSender (some p) = r'.1.getSender (some p)
  curNum : r.1.pool.curNum = r'.1.pool.curNum
  maxNum : r.1.pool.maxNum = r'.1.pool.maxNum
  workers : r.1.pool.workers.Perm r'.1.pool.workers
  sent : ∀ p, r.2.filter (fun m ↦ m.1 = p) = r'.2.filter fun m ↦ m.1 = p

/-! ## Reading and writing -/

/-- The sender an event works on. -/
def target (srv : Server F) : UploadEvent → Option SenderRef
  | .ack p _ => srv.getSender (some p)
  | .iterate i | .timeout i _ => some i

/-- What an event reads: its sender, if there is one, and what becomes of it. -/
def reads (srv : Server F) (e : UploadEvent) : Option (Option (SenderRef × Outcome F)) :=
  match srv.target e with
  | none => some none
  | some i => srv.senders[i]?.bind fun t ↦ (e.outcome t).map fun out ↦ some (i, out)

/-- What an event writes. -/
def write (srv : Server F) : Option (SenderRef × Outcome F) → Server F
  | none => srv
  | some (i, out) =>
      { senders := srv.senders.set i out.thread
        pool := srv.pool.removeIf out.removed (srv.serves out.thread.sdr.pReceiver) }

/-- What an event sends. -/
def sends : Option (SenderRef × Outcome F) → List (PeerRef × Packet)
  | none => []
  | some (_, out) => out.pkts.flatMap (sendPKT out.thread.sdr.pReceiver)

theorem serves_iff {q : Option PeerRef} :
    srv.serves q i = true ↔ ∃ t, srv.senders[i]? = some t ∧ t.sdr.pReceiver = q := by
  rw [serves]
  cases srv.senders[i]? with
  | none =>
      constructor
      · rintro ⟨⟩
      · rintro ⟨t, ⟨⟩, -⟩
  | some t =>
      constructor
      · intro h
        exact ⟨t, rfl, eq_of_beq h⟩
      · rintro ⟨u, ⟨⟩, h⟩
        exact beq_iff_eq.mpr h

/-- The pool entry `get_sender` stops at is a sender to the peer. -/
theorem exists_of_getSender (h : srv.getSender (some p) = some i) :
    ∃ t, srv.senders[i]? = some t ∧ t.sdr.pReceiver = some p :=
  serves_iff.mp (List.find?_some h)

theorem peer_of_target (htarget : srv.target e = some i) (ht : srv.senders[i]? = some t) :
    t.sdr.pReceiver = srv.eventPeer e := by
  have hpeerOf : srv.peerOf i = t.sdr.pReceiver := by
    rw [peerOf, ht]
    rfl
  cases e with
  | ack p pkt =>
      obtain ⟨u, hu, hpeer⟩ := exists_of_getSender htarget
      rw [ht, Option.some.injEq] at hu
      rw [hu]
      exact hpeer
  | iterate j =>
      cases htarget
      exact hpeerOf.symm
  | timeout j id =>
      cases htarget
      exact hpeerOf.symm

/-- Every event reads its sender and then writes it. -/
theorem act_eq (srv : Server F) (e : UploadEvent) :
    srv.act e = (srv.reads e).map fun x ↦ (srv.write x, sends x) := by
  cases e with
  | ack p pkt =>
      rw [reads, target, act, Server.processACK]
      cases hget : srv.getSender (some p) with
      | none => rfl
      | some i =>
          obtain ⟨t, ht, -⟩ := exists_of_getSender hget
          simp only [ht, UploadEvent.outcome, Option.bind_some, Option.map_some, write, sends,
            List.flatMap_nil]
          congr 2
          split
          · next hout =>
              rw [hout]
              rfl
          · next hout =>
              rw [Bool.eq_false_of_not_eq_true hout]
              rfl
  | iterate i =>
      show srv.senders[i]?.bind _ = (srv.senders[i]?.bind _).map _
      cases srv.senders[i]? with
      | none => rfl
      | some t =>
          simp only [Option.bind_some, UploadEvent.outcome]
          split
          · next hphase =>
              have hkeep : t.iterate.1.sdr.pReceiver = t.sdr.pReceiver :=
                UploadEvent.pReceiver_outcome (e := .iterate i) (if_pos hphase)
              simp only [Option.map_some, write, sends, hkeep]
              rfl
          · rfl
  | timeout i id =>
      show srv.senders[i]?.bind _ = (srv.senders[i]?.bind _).map _
      cases srv.senders[i]? with
      | none => rfl
      | some t =>
          simp only [Option.bind_some, UploadEvent.outcome]
          split <;> rfl

/-- What is read is the sender of the event's peer. -/
theorem reads_cases {x : Option (SenderRef × Outcome F)} (h : srv.reads e = some x) :
    (x = none ∧ srv.target e = none) ∨
    ∃ i t out, x = some (i, out) ∧ srv.senders[i]? = some t ∧ e.outcome t = some out ∧
      t.sdr.pReceiver = srv.eventPeer e ∧ out.thread.sdr.pReceiver = t.sdr.pReceiver := by
  rw [reads] at h
  cases htarget : srv.target e with
  | none =>
      rw [htarget] at h
      cases h
      exact .inl ⟨rfl, rfl⟩
  | some i =>
      rw [htarget] at h
      obtain ⟨t, ht, hmap⟩ := Option.bind_eq_some_iff.mp h
      obtain ⟨out, hout, rfl⟩ := Option.map_eq_some_iff.mp hmap
      refine .inr ⟨i, t, out, rfl, ht, hout, ?_, UploadEvent.pReceiver_outcome hout⟩
      exact peer_of_target htarget ht

section Write

variable {out : Outcome F}

/-- Writing a sender does not change whom the pool entries serve. -/
theorem serves_write (ht : srv.senders[i]? = some t)
    (hpeer : out.thread.sdr.pReceiver = t.sdr.pReceiver) :
    (srv.write (some (i, out))).serves = srv.serves := by
  have hlt : i < srv.senders.length := (List.getElem?_eq_some_iff.mp ht).1
  funext q j
  rw [Bool.eq_iff_iff, serves_iff, serves_iff]
  show (∃ u, (srv.senders.set i out.thread)[j]? = some u ∧ _) ↔ _
  by_cases hij : i = j
  · subst hij
    rw [List.getElem?_set_self hlt, ht]
    constructor
    · rintro ⟨u, ⟨⟩, hu⟩
      exact ⟨t, rfl, hpeer.symm.trans hu⟩
    · rintro ⟨u, ⟨⟩, hu⟩
      exact ⟨out.thread, rfl, hpeer.trans hu⟩
  · rw [List.getElem?_set_ne hij]

/-- Senders to different peers are looked for with disjoint searches. -/
theorem serves_disjoint {q q' : Option PeerRef} (hne : q ≠ q') (h : srv.serves q i = true) :
    srv.serves q' i = false := by
  obtain ⟨t, ht, rfl⟩ := serves_iff.mp h
  by_contra hcon
  obtain ⟨u, hu, rfl⟩ := serves_iff.mp (Bool.eq_true_of_not_eq_false hcon)
  rw [ht, Option.some.injEq] at hu
  exact hne (by rw [hu])

/-- The pool invariant survives every write. -/
theorem OnePerPeer.write (h : srv.OnePerPeer) (ht : srv.senders[i]? = some t)
    (hpeer : out.thread.sdr.pReceiver = t.sdr.pReceiver) :
    (srv.write (some (i, out))).OnePerPeer := by
  constructor
  · exact h.counts.removeIf _ _
  · intro p
    rw [serves_write ht hpeer]
    exact h.counts.atMostOne_removeIf _ (h.distinct p)

/-- A write to the sender of one peer does not change what `get_sender` finds for
another. -/
theorem OnePerPeer.getSender_write (h : srv.OnePerPeer) (ht : srv.senders[i]? = some t)
    (hpeer : out.thread.sdr.pReceiver = t.sdr.pReceiver) (hne : t.sdr.pReceiver ≠ some p) :
    (srv.write (some (i, out))).getSender (some p) = srv.getSender (some p) := by
  show (srv.write (some (i, out))).pool.get ((srv.write (some (i, out))).serves (some p)) = _
  rw [serves_write ht hpeer]
  apply h.counts.get_removeIf _ (h.distinct p)
  intro w _ hw
  rw [hpeer] at hw
  exact serves_disjoint hne hw

end Write

/-- What an event reads is not touched by an event of another peer. -/
theorem OnePerPeer.reads_write (h : srv.OnePerPeer) (hne : srv.eventPeer e₁ ≠ srv.eventPeer e₂)
    {x : Option (SenderRef × Outcome F)} (hx : srv.reads e₁ = some x) :
    (srv.write x).reads e₂ = srv.reads e₂ := by
  rcases reads_cases hx with ⟨rfl, -⟩ | ⟨i, t, out, rfl, ht, -, hown, hpeer⟩
  · rfl
  have htarget : (srv.write (some (i, out))).target e₂ = srv.target e₂ := by
    cases e₂ with
    | ack q pkt =>
        apply h.getSender_write ht hpeer
        rw [hown]
        exact hne
    | iterate j => rfl
    | timeout j id => rfl
  rw [reads, reads, htarget]
  cases hj : srv.target e₂ with
  | none => rfl
  | some j =>
      have hsame : (srv.write (some (i, out))).senders[j]? = srv.senders[j]? := by
        apply List.getElem?_set_ne
        rintro rfl
        exact hne (hown.symm.trans (peer_of_target hj ht))
      simp only [hsame]

/-- The packets of an event go to its peer. -/
theorem filter_sends (i : SenderRef) (out : Outcome F) (hne : out.thread.sdr.pReceiver ≠ some p) :
    (sends (some (i, out))).filter (fun m ↦ m.1 = p) = [] := by
  rw [List.filter_eq_nil_iff]
  intro m hm
  obtain ⟨pkt, -, hsent⟩ := List.mem_flatMap.mp hm
  obtain ⟨q, hq, rfl⟩ := List.mem_map.mp hsent
  rw [Option.mem_toList] at hq
  rw [decide_eq_true_iff]
  rintro rfl
  exact hne hq

/-! ## Two events -/

theorem Alike.refl (r : Server F × List (PeerRef × Packet)) : Alike r r :=
  ⟨rfl, fun _ ↦ rfl, rfl, rfl, .refl _, fun _ ↦ rfl⟩

/-- Two pools with the same workers up to their order. -/
theorem Alike.of_perm {r r' : Server F × List (PeerRef × Packet)} (h : r.1.OnePerPeer)
    (h' : r'.1.OnePerPeer) (hsenders : r.1.senders = r'.1.senders)
    (hmax : r.1.pool.maxNum = r'.1.pool.maxNum)
    (hworkers : r.1.pool.workers.Perm r'.1.pool.workers)
    (hsent : ∀ p, r.2.filter (fun m ↦ m.1 = p) = r'.2.filter fun m ↦ m.1 = p) : Alike r r' := by
  have hserves : r.1.serves = r'.1.serves := by
    funext q j
    rw [serves, serves, hsenders]
  refine ⟨hsenders, ?_, ?_, hmax, hworkers, hsent⟩
  · intro p
    show r.1.pool.workers.find? _ = r'.1.pool.workers.find? _
    rw [← hserves]
    exact (h.distinct p).find?_perm hworkers
  · rw [h.counts, h'.counts, hworkers.length_eq]

/-- A removal is for a peer, which has one sender in the pool at most. -/
theorem OnePerPeer.distinct_of_removed (h : srv.OnePerPeer) {out : Outcome F}
    (hout : e.outcome t = some out) (hb : out.removed = true) :
    Keyed.AtMostOne (srv.serves (srv.eventPeer e)) srv.pool.workers := by
  obtain ⟨p, pkt, rfl⟩ := UploadEvent.eq_ack_of_removed hout hb
  exact h.distinct p

/-- The writes of two events of different peers commute. -/
theorem OnePerPeer.write_comm (h : srv.OnePerPeer) (hne : srv.eventPeer e₁ ≠ srv.eventPeer e₂)
    {x y : Option (SenderRef × Outcome F)} (hx : srv.reads e₁ = some x) (hy : srv.reads e₂ = some y) :
    Alike ((srv.write x).write y, sends x ++ sends y) ((srv.write y).write x, sends y ++ sends x) := by
  rcases reads_cases hx with ⟨rfl, -⟩ | ⟨i, t, out, rfl, ht, hout, hown, hpeer⟩
  · rw [show sends none ++ sends y = sends y ++ sends none from (List.append_nil _).symm]
    exact .refl _
  rcases reads_cases hy with ⟨rfl, -⟩ | ⟨j, u, out', rfl, hu, hout', hown', hpeer'⟩
  · rw [show sends none ++ sends (some (i, out)) = sends (some (i, out)) ++ sends none from
      (List.append_nil _).symm]
    exact .refl _
  have hpp : t.sdr.pReceiver ≠ u.sdr.pReceiver := by
    rw [hown, hown']
    exact hne
  have hij : i ≠ j := by
    rintro rfl
    rw [ht, Option.some.injEq] at hu
    exact hpp (by rw [hu])
  have hu' : (srv.write (some (i, out))).senders[j]? = some u :=
    (List.getElem?_set_ne hij).trans hu
  have ht' : (srv.write (some (j, out'))).senders[i]? = some t :=
    (List.getElem?_set_ne (Ne.symm hij)).trans ht
  refine Alike.of_perm ((h.write ht hpeer).write hu' hpeer') ((h.write hu hpeer').write ht' hpeer)
    (List.set_comm _ _ hij) ?_ ?_ ?_
  · simp only [Server.write, Pool.maxNum_removeIf]
  · show ((srv.pool.removeIf _ _).removeIf _ ((srv.write (some (i, out))).serves _)).workers.Perm
      ((srv.pool.removeIf _ _).removeIf _ ((srv.write (some (j, out'))).serves _)).workers
    rw [serves_write ht hpeer, serves_write hu hpeer']
    apply h.counts.removeIf_comm
    · intro hb
      rw [hpeer, hown]
      exact h.distinct_of_removed hout hb
    · intro hb
      rw [hpeer', hown']
      exact h.distinct_of_removed hout' hb
    · intro w _ hw
      rw [hpeer] at hw
      rw [hpeer']
      exact serves_disjoint hpp hw
  · intro p
    rw [List.filter_append, List.filter_append]
    by_cases hp : t.sdr.pReceiver = some p
    · rw [filter_sends j out' (by rw [hpeer', ← hp]; exact Ne.symm hpp), List.append_nil]
      rfl
    · rw [filter_sends i out (by rw [hpeer]; exact hp), List.append_nil]
      rfl

/-- Two events that belong to the uploads of different peers, in either order: both
orders are possible or neither is, and the outcomes are alike. -/
theorem uploads_independent (h : srv.OnePerPeer) (hne : srv.eventPeer e₁ ≠ srv.eventPeer e₂) :
    Option.Rel Alike (srv.actTwice e₁ e₂) (srv.actTwice e₂ e₁) := by
  rw [actTwice, actTwice, act_eq, act_eq]
  cases hx : srv.reads e₁ with
  | none =>
      cases hy : srv.reads e₂ with
      | none => exact .none
      | some y =>
          have hsame := h.reads_write (Ne.symm hne) hy
          simp only [Option.map_none, Option.map_some, Option.bind_none, Option.bind_some, act_eq,
            hsame, hx]
          exact .none
  | some x =>
      have hsame := h.reads_write hne hx
      cases hy : srv.reads e₂ with
      | none =>
          simp only [Option.map_none, Option.map_some, Option.bind_none, Option.bind_some, act_eq,
            hsame, hy]
          exact .none
      | some y =>
          have hsame' := h.reads_write (Ne.symm hne) hy
          simp only [Option.map_some, Option.bind_some, act_eq, hsame, hsame', hx, hy]
          exact .some (h.write_comm hne hx hy)

/-- Two uploads of a chunk of zeros, everything sent. -/
def twoSent : Server ℚ where
  senders := [0, 1].map fun p ↦
    { sdr := { newSender (some p) (chunk2pkts (.fill 0)).1 dataPktNum with lastSent := dataPktNum }
      timeouts := []
      phase := .looping }
  pool := { maxNum := 2, curNum := 2, workers := [0, 1] }

theorem onePerPeer_twoSent : twoSent.OnePerPeer where
  counts := rfl
  distinct p := by
    refine List.pairwise_pair.mpr fun h h' ↦ ?_
    have h₀ : some 0 = some p := eq_of_beq h
    have h₁ : some 1 = some p := eq_of_beq h'
    cases h₀.trans h₁.symm

/-- Their final ACKs, each of which removes a sender. -/
theorem uploads_independent_twoSent :
    Option.Rel Alike (twoSent.actTwice (.ack 0 (makeACK 375)) (.ack 1 (makeACK 375)))
      (twoSent.actTwice (.ack 1 (makeACK 375)) (.ack 0 (makeACK 375))) :=
  uploads_independent onePerPeer_twoSent (by decide)

end Server

end BitTorrent
