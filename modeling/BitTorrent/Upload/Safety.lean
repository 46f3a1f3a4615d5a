import Mathlib.Data.List.MinMax
import BitTorrent.Upload.Sender
import BitTorrent.Upload.Receiver

/-!
# Safety of an upload

What ties the two ends of an upload together in every reachable state: no
acknowledgment, wherever it is, is ahead of the receiver, and the receiver is
never ahead of what was sent.  The sender rolls back on timeouts and duplicate
acknowledgments, but only to a number it has acknowledged before.
-/

namespace BitTorrent

set_option linter.unusedSectionVars false

variable {F : Type} [NatCast F] [Add F] [Div F] [LE F] [DecidableLE F] [TruncU32 F]

/-! ## What a step does to the sender -/

namespace Sending

variable {s s' : Sending F} {e : SendEvent}

/-- `last_acked` moves up to the number of an ACK, or back to the packet whose
timeout fires, or not at all. -/
theorem lastAcked_cases (h : s.step e = some s') :
    s'.sdr.lastAcked = s.sdr.lastAcked ∨
    (∃ n, e = .ack n ∧ s.sdr.lastAcked < n ∧ s'.sdr.lastAcked = n) ∨
    (e = .timeout s.sdr.timer.id ∧ s'.sdr.lastAcked = s.sdr.timer.id) := by
  cases step_cases h with
  | rewound hid =>
      subst hid
      exact .inr (.inr ⟨rfl, rfl⟩)
  | @kept n _ _ hack =>
      cases hack with
      | ignored heq => exact .inl heq.lastAcked
      | advanced _ hnew heq => exact .inr (.inl ⟨n, rfl, hnew, heq.lastAcked⟩)
      | retransmitted _ hdup heq => exact .inl (heq.lastAcked.trans hdup)
  | _ => exact .inl rfl

/-- Only a final ACK takes the sender out of the pool, and only once the whole
chunk was sent. -/
theorem pooled_step (h : s.step e = some s') (hin : s.pooled = true) (hout : s'.pooled = false) :
    ∃ n, e = .ack n ∧ s.sdr.pktNum ≤ n ∧ s.sdr.pktNum ≤ s.sdr.lastSent := by
  cases step_cases h with
  | @ended n hfinal hsent => exact ⟨n, rfl, hfinal, hsent⟩
  | _ => exact absurd (hout.symm.trans hin) Bool.false_ne_true

/-- An iteration that sends the first packet of the window. -/
theorem iterate_first (hcan : s.CanSend) (hfirst : s.sdr.lastSent = s.sdr.lastAcked)
    (hacked : s.sdr.lastAcked < s.sdr.pktNum) :
    s.iterate =
      ({ sdr := { s.sdr with
          lastSent := s.sdr.lastSent + 1
          timer := { running := true, id := s.sdr.lastAcked } }
         timeouts := s.sdr.lastAcked :: s.timeouts
         phase := s.phase
         pooled := s.pooled },
        s.sdr.pkts[s.sdr.lastSent]?.toList) := by
  simp only [iterate, SenderThread.iterate, SenderThread.trySend_first _ hcan hfirst,
    SenderThread.Done, if_neg (Nat.not_le_of_lt hacked)]

/-- An iteration that sends any other packet. -/
theorem iterate_next (hcan : s.CanSend) (hnext : s.sdr.lastSent ≠ s.sdr.lastAcked)
    (hacked : s.sdr.lastAcked < s.sdr.pktNum) :
    s.iterate =
      ({ s with sdr := { s.sdr with lastSent := s.sdr.lastSent + 1 } },
        s.sdr.pkts[s.sdr.lastSent]?.toList) := by
  simp only [iterate, SenderThread.iterate, SenderThread.trySend_next _ hcan hnext,
    SenderThread.Done, if_neg (Nat.not_le_of_lt hacked)]

/-- An acknowledgment of something new. -/
theorem processACK_new {n : Nat} (hpooled : s.pooled = true) (hn : n < s.sdr.pktNum)
    (hnew : s.sdr.lastAcked < n) :
    s.processACK n = { s with sdr := (s.sdr.advance n).stopTimer } := by
  rw [processACK, if_pos hpooled, Sender.processACK, if_neg (Nat.not_le_of_lt hn), if_pos hnew,
    hpooled]
  rfl

end Sending

/-! ## The steps of an upload -/

namespace Upload

/-- The kinds of steps: the sender's threads, an iteration that may send, a DATA
packet, an ACK packet, and the network. -/
inductive Change (u : Upload F) : Event → Upload F → Prop
  | begins {s} : u.sending.step .begin = some s → Change u .begin { u with sending := s }
  | sends {s} : u.sending.step .iterate = some s → Change u .iterate
      { u with
        sending := s
        data := u.sending.iterate.2 ++ u.data
        sent := u.sending.iterate.2.map (fun p ↦ p.header.seqNum.toNat) ++ u.sent }
  | expires {id s} : u.sending.step (.timeout id) = some s →
      Change u (.timeout id) { u with sending := s }
  | arrives {p r replies} : p ∈ u.data → u.receiving.processDATA p = some (r, replies) →
      Change u (.deliverData p)
        { u with receiving := r, data := u.data.erase p, acks := replies ++ u.acks }
  | acked {p s} : p ∈ u.acks → u.sending.step (.ack p.header.ackNum.toNat) = some s →
      Change u (.deliverAck p) { u with sending := s, acks := u.acks.erase p }
  | network {e data acks} : data ⊆ u.data → acks ⊆ u.acks →
      Change u e { u with data := data, acks := acks }

theorem step_cases {u u' : Upload F} {e : Event} (h : u.step e = some u') : u.Change e u' := by
  cases e with
  | begin =>
      obtain ⟨s, hs, rfl⟩ := Option.map_eq_some_iff.mp h
      exact .begins hs
  | iterate =>
      obtain ⟨s, hs, rfl⟩ := Option.map_eq_some_iff.mp h
      exact .sends hs
  | timeout id =>
      obtain ⟨s, hs, rfl⟩ := Option.map_eq_some_iff.mp h
      exact .expires hs
  | deliverData p =>
      simp only [step, Option.ite_none_right_eq_some, Option.map_eq_some_iff] at h
      obtain ⟨hp, ⟨r, replies⟩, hr, rfl⟩ := h
      exact .arrives hp hr
  | deliverAck p =>
      simp only [step, Option.ite_none_right_eq_some, Option.map_eq_some_iff] at h
      obtain ⟨hp, s, hs, rfl⟩ := h
      exact .acked hp hs
  | loseData p =>
      simp only [step, Option.ite_none_right_eq_some, Option.some.injEq] at h
      obtain ⟨-, rfl⟩ := h
      exact .network List.erase_subset (List.Subset.refl _)
  | loseAck p =>
      simp only [step, Option.ite_none_right_eq_some, Option.some.injEq] at h
      obtain ⟨-, rfl⟩ := h
      exact .network (List.Subset.refl _) List.erase_subset
  | duplicateData p =>
      simp only [step, Option.ite_none_right_eq_some, Option.some.injEq] at h
      obtain ⟨hp, rfl⟩ := h
      exact .network (List.cons_subset.mpr ⟨hp, List.Subset.refl _⟩) (List.Subset.refl _)
  | duplicateAck p =>
      simp only [step, Option.ite_none_right_eq_some, Option.some.injEq] at h
      obtain ⟨hp, rfl⟩ := h
      exact .network (List.Subset.refl _) (List.cons_subset.mpr ⟨hp, List.Subset.refl _⟩)

/-! ### Steps that are enabled -/

section Enabled

variable {u : Upload F}

theorem step_begin (h : u.sending.phase = .created) :
    u.step .begin = some { u with sending := u.sending.beginThread } := by
  simp only [Upload.step, Sending.step, if_pos h, Option.map_some]

theorem step_timeout {id : Nat} (h : id ∈ u.sending.timeouts) :
    u.step (.timeout id) = some { u with sending := u.sending.timeout id } := by
  simp only [Upload.step, Sending.step, if_pos h, Option.map_some]

theorem step_deliverData {p : Packet} {r : Receiving} {replies : List Packet} (hp : p ∈ u.data)
    (h : u.receiving.processDATA p = some (r, replies)) :
    u.step (.deliverData p) = some
      { u with receiving := r, data := u.data.erase p, acks := replies ++ u.acks } := by
  simp only [Upload.step, if_pos hp, h, Option.map_some]

theorem step_deliverAck {p : Packet} (hp : p ∈ u.acks) :
    u.step (.deliverAck p) = some
      { u with
        sending := u.sending.processACK p.header.ackNum.toNat
        acks := u.acks.erase p } := by
  simp only [Upload.step, if_pos hp, Sending.step, Option.map_some]

/-- One iteration of the sender. -/
theorem step_iterate (h : u.sending.phase = .looping) :
    u.step .iterate = some
      { u with
        sending := u.sending.iterate.1
        data := u.sending.iterate.2 ++ u.data
        sent := u.sending.iterate.2.map (fun p ↦ p.header.seqNum.toNat) ++ u.sent } := by
  simp only [Upload.step, Sending.step, if_pos h, Option.map_some]

end Enabled

/-! ### Removal -/

/-- The sender leaves the pool only when a final ACK arrives and the whole chunk
was sent. -/
theorem removed_step {u u' : Upload F} {e : Event} (h : u.step e = some u')
    (hin : u.sending.pooled = true) (hout : u'.sending.pooled = false) :
    ∃ p ∈ u.acks, e = .deliverAck p ∧ u.sdr.pktNum ≤ p.header.ackNum.toNat ∧
      u.sdr.pktNum ≤ u.sdr.lastSent := by
  cases step_cases h with
  | begins hs | sends hs | expires hs =>
      obtain ⟨n, hn, -⟩ := Sending.pooled_step hs hin hout
      cases hn
  | @acked p s hp hs =>
      obtain ⟨n, hn, hfinal, hsent⟩ := Sending.pooled_step hs hin hout
      cases hn
      exact ⟨p, hp, rfl, hfinal, hsent⟩
  | arrives | network => exact absurd (hout.symm.trans hin) Bool.false_ne_true

/-! ## The invariant -/

/-- What holds of both ends and of the packets between them. -/
structure Safe (content : ChunkData) (u : Upload F) : Prop where
  ranges : u.sdr.Ranges
  pkts_eq : u.sdr.pkts = (chunk2pkts content).1
  num_eq : u.sdr.pktNum = dataPktNum
  receiving : u.receiving.Ok
  acked_le : u.sdr.lastAcked ≤ u.rcvr.lastRcvd
  acks_le : ∀ p ∈ u.acks, p.header.ackNum.toNat ≤ u.rcvr.lastRcvd
  data_sent : ∀ p ∈ u.data, ∃ i < dataPktNum, dataPacket content i = p ∧ i + 1 ∈ u.sent
  rcvd_sent : ∀ k, 1 ≤ k → k ≤ u.rcvr.lastRcvd → k ∈ u.sent
  removed : u.sending.pooled = false → u.rcvr.lastRcvd = dataPktNum

variable {content : ChunkData} {u u' : Upload F}

theorem safe_init (pRcvr pSdr : PeerRef) (chunk : ChunkRef) (content buffer : ChunkData) :
    (init pRcvr pSdr chunk content buffer : Upload F).Safe content where
  ranges := Sender.ranges_newSender (by rw [chunk2pkts_snd]; decide)
  pkts_eq := rfl
  num_eq := chunk2pkts_snd content
  receiving := Receiving.ok_init pSdr chunk buffer
  acked_le := Nat.le_refl 0
  acks_le _ hp := absurd hp List.not_mem_nil
  data_sent _ hp := absurd hp List.not_mem_nil
  rcvd_sent _ h1 h2 := absurd (h1.trans h2) (Nat.not_succ_le_zero 0)
  removed h := by cases h

/-- A step of the sender driven by an acknowledgment the receiver has sent, or by
none, keeps what the invariant says about it. -/
theorem Safe.sending_step (h : u.Safe content) {e : SendEvent} {s : Sending F}
    (hs : u.sending.step e = some s) (he : ∀ n, e = .ack n → n ≤ u.rcvr.lastRcvd) :
    s.sdr.Ranges ∧ s.sdr.pkts = (chunk2pkts content).1 ∧ s.sdr.pktNum = dataPktNum ∧
      s.sdr.lastAcked ≤ u.rcvr.lastRcvd ∧ (s.pooled = false → u.rcvr.lastRcvd = dataPktNum) := by
  obtain ⟨hpkts, hnum, -⟩ := Sending.step_frame hs
  refine ⟨Sending.ranges_step h.ranges hs, hpkts.trans h.pkts_eq, hnum.trans h.num_eq, ?_, ?_⟩
  · rcases Sending.lastAcked_cases hs with heq | ⟨n, hn, -, heq⟩ | ⟨-, heq⟩
    · rw [heq]
      exact h.acked_le
    · rw [heq]
      exact he n hn
    · rw [heq]
      exact h.ranges.timer_le.trans h.acked_le
  · intro hout
    by_cases hin : u.sending.pooled = true
    · obtain ⟨n, hack, hfinal, -⟩ := Sending.pooled_step hs hin hout
      refine Nat.le_antisymm h.receiving.rcvd_le (Nat.le_trans ?_ (he n hack))
      rw [← h.num_eq]
      exact hfinal
    · exact h.removed (Bool.eq_false_of_not_eq_true hin)

/-- Every step preserves the invariant. -/
theorem Safe.step (h : u.Safe content) {e : Event} (hstep : u.step e = some u') :
    u'.Safe content := by
  cases step_cases hstep with
  | begins hs | expires hs =>
      obtain ⟨hr, hpkts, hnum, hacked, hremoved⟩ := h.sending_step hs fun n hn ↦ by cases hn
      exact ⟨hr, hpkts, hnum, h.receiving, hacked, h.acks_le, h.data_sent, h.rcvd_sent, hremoved⟩
  | sends hs =>
      obtain ⟨hr, hpkts, hnum, hacked, hremoved⟩ := h.sending_step hs fun n hn ↦ by cases hn
      refine ⟨hr, hpkts, hnum, h.receiving, hacked, h.acks_le, ?_, ?_, hremoved⟩
      · intro p hp
        rcases List.mem_append.mp hp with hnew | hold
        · have hget := Sending.mem_iterate hnew
          rw [show u.sending.sdr.pkts = _ from h.pkts_eq] at hget
          obtain ⟨i, hi, rfl⟩ := mem_chunk2pkts.mp (List.mem_of_getElem? hget)
          refine ⟨i, hi, rfl, List.mem_append_left _ ?_⟩
          rw [← seqNum_dataPacket hi]
          exact List.mem_map_of_mem hnew
        · obtain ⟨i, hi, hpi, hsent⟩ := h.data_sent p hold
          exact ⟨i, hi, hpi, List.mem_append_right _ hsent⟩
      · intro k h1 hk
        exact List.mem_append_right _ (h.rcvd_sent k h1 hk)
  | arrives hp hr =>
      obtain ⟨i, hi, rfl, hsent⟩ := h.data_sent _ hp
      obtain ⟨out, hout, hcase⟩ := Receiving.processDATA_cases content h.receiving hi
      rw [hout, Option.some.injEq] at hr
      subst hr
      have hdata : ∀ q ∈ u.data.erase (dataPacket content i), ∃ j < dataPktNum,
          dataPacket content j = q ∧ j + 1 ∈ u.sent :=
        fun q hq ↦ h.data_sent q (List.mem_of_mem_erase hq)
      cases hcase with
      | closed =>
          exact ⟨h.ranges, h.pkts_eq, h.num_eq, h.receiving, h.acked_le, h.acks_le, hdata,
            h.rcvd_sent, h.removed⟩
      | repeated hlt =>
          refine ⟨h.ranges, h.pkts_eq, h.num_eq, h.receiving, h.acked_le, ?_, hdata, h.rcvd_sent,
            h.removed⟩
          rintro q (_ | ⟨_, hq⟩)
          · exact Nat.le_of_eq (ackNum_toNat_makeACK h.receiving.rcvd_le)
          · exact h.acks_le q hq
      | stored hlt hi' =>
          -- the receiver moves on by one, to a packet that was sent
          refine ⟨h.ranges, h.pkts_eq, h.num_eq, Receiving.ok_next hlt, Nat.le_succ_of_le h.acked_le,
            ?_, hdata, ?_, ?_⟩
          · rintro q (_ | ⟨_, hq⟩)
            · exact Nat.le_of_eq (ackNum_toNat_makeACK hlt)
            · exact Nat.le_succ_of_le (h.acks_le q hq)
          · intro k h1 hk
            rcases Nat.le_succ_iff.mp hk with hle | rfl
            · exact h.rcvd_sent k h1 hle
            · rw [hi'] at hsent
              exact hsent
          · intro hout
            exact absurd (h.removed hout) (Nat.ne_of_lt hlt)
  | acked hp hs =>
      obtain ⟨hr, hpkts, hnum, hacked, hremoved⟩ :=
        h.sending_step hs fun n hn ↦ by cases hn; exact h.acks_le _ hp
      exact ⟨hr, hpkts, hnum, h.receiving, hacked, fun q hq ↦ h.acks_le q (List.mem_of_mem_erase hq),
        h.data_sent, h.rcvd_sent, hremoved⟩
  | network hdata hacks =>
      exact ⟨h.ranges, h.pkts_eq, h.num_eq, h.receiving, h.acked_le, fun p hp ↦ h.acks_le p (hacks hp),
        fun p hp ↦ h.data_sent p (hdata hp), h.rcvd_sent, h.removed⟩

/-- The invariant holds in every reachable state. -/
theorem safe_of_reaches {pRcvr pSdr : PeerRef} {chunk : ChunkRef} {content buffer : ChunkData}
    (h : Machine.Reaches step (init pRcvr pSdr chunk content buffer) u) : u.Safe content :=
  h.invariant (fun _ _ _ hs hstep ↦ hs.step hstep) (safe_init pRcvr pSdr chunk content buffer)

/-- In every reachable state of an upload no acknowledgment is ahead of the
receiver: none in flight, and not the sender's own.  The receiver is not ahead
of the sender: everything it has was sent.  And `process_ACK` removes the sender
only when the receiver has every packet. -/
theorem acks_never_ahead {pRcvr pSdr : PeerRef} {chunk : ChunkRef} {content buffer : ChunkData}
    (h : Machine.Reaches step (init pRcvr pSdr chunk content buffer) u) :
    (∀ p ∈ u.acks, p.header.ackNum.toNat ≤ u.rcvr.lastRcvd) ∧
    u.sdr.lastAcked ≤ u.rcvr.lastRcvd ∧
    u.rcvr.lastRcvd ≤ u.sent.foldr max 0 ∧
    (∀ k, 1 ≤ k → k ≤ u.rcvr.lastRcvd → k ∈ u.sent) ∧
    (∀ e u', u.step e = some u' → u.sending.pooled = true → u'.sending.pooled = false →
      (∃ p, e = .deliverAck p) ∧ u.rcvr.lastRcvd = u.sdr.pktNum) ∧
    (u.sending.pooled = false → u.rcvr.lastRcvd = u.sdr.pktNum) := by
  have hsafe := safe_of_reaches h
  refine ⟨hsafe.acks_le, hsafe.acked_le, ?_, hsafe.rcvd_sent, ?_, ?_⟩
  · rcases Nat.eq_zero_or_pos u.rcvr.lastRcvd with hzero | hpos
    · rw [hzero]
      exact Nat.zero_le _
    · exact List.le_max_of_le' 0 (hsafe.rcvd_sent _ hpos (Nat.le_refl _)) (Nat.le_refl _)
  · intro e u' hstep hin hout
    obtain ⟨p, hp, he, hfinal, -⟩ := removed_step hstep hin hout
    refine ⟨⟨p, he⟩, Nat.le_antisymm ?_ (hfinal.trans (hsafe.acks_le p hp))⟩
    rw [hsafe.num_eq]
    exact hsafe.receiving.rcvd_le
  · intro hout
    rw [hsafe.removed hout, hsafe.num_eq]

/-- Packet 1 arrives twice, and one of the two ACKs is lost.  Of the other one there are two, and
the first lets packet 2 be sent, which is lost. -/
def lossyStart : List Event :=
  [.begin, .iterate, .duplicateData (dataPacket (.fill 0) 0), .deliverData (dataPacket (.fill 0) 0),
    .deliverData (dataPacket (.fill 0) 0), .loseAck (makeACK 1), .duplicateAck (makeACK 1),
    .deliverAck (makeACK 1), .iterate, .loseData (dataPacket (.fill 0) 1)]

/-- Then an ACK is still in flight. -/
theorem run_lossyStart : ∃ u : Upload ℚ,
    Machine.run step (init 0 1 0 (.fill 0) (.fill 0)) lossyStart = some u ∧ u.acks = [makeACK 1] ∧
      u.sdr.lastAcked = 1 ∧ u.rcvr.lastRcvd = 1 ∧ u.sent = [2, 1] ∧ u.sdr.pktNum = 375 := by
  have hvalues : (Machine.run step (init 0 1 0 (.fill 0) (.fill 0) : Upload ℚ) lossyStart).map
      (fun u ↦ (u.acks, u.sdr.lastAcked, u.rcvr.lastRcvd, u.sent, u.sdr.pktNum)) =
        some ([makeACK 1], 1, 1, [2, 1], 375) := by decide +kernel
  obtain ⟨u, hrun, hu⟩ := Option.map_eq_some_iff.mp hvalues
  simp only [Prod.mk.injEq] at hu
  exact ⟨u, hrun, hu⟩

/-- It is not ahead of the receiver, and neither is the sender. -/
theorem acks_never_ahead_lossy : ∃ u : Upload ℚ,
    Machine.run step (init 0 1 0 (.fill 0) (.fill 0)) lossyStart = some u ∧ u.acks = [makeACK 1] ∧
      u.sdr.lastAcked = 1 ∧ u.rcvr.lastRcvd = 1 ∧
      (∀ p ∈ u.acks, p.header.ackNum.toNat ≤ u.rcvr.lastRcvd) ∧
      u.sdr.lastAcked ≤ u.rcvr.lastRcvd ∧ u.rcvr.lastRcvd ≤ u.sent.foldr max 0 ∧
      ∀ k, 1 ≤ k → k ≤ u.rcvr.lastRcvd → k ∈ u.sent := by
  obtain ⟨u, hrun, hflight, hone, hstored, -⟩ := run_lossyStart
  obtain ⟨hacks, hacked, hrcvd, hsent, -⟩ := acks_never_ahead ⟨_, hrun⟩
  exact ⟨u, hrun, hflight, hone, hstored, hacks, hacked, hrcvd, hsent⟩

end Upload

end BitTorrent
