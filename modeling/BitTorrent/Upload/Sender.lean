import BitTorrent.Upload.System

/-!
# What one step does to a sender

The case analyses the invariants of an upload rest on: `process_ACK`, an
iteration of `process_sender` and a timeout each change a sender in one of a
few ways.  Nothing here depends on how `cwnd` is computed.
-/

namespace BitTorrent

variable {F : Type} [NatCast F] [Add F] [Div F] [LE F] [DecidableLE F] [TruncU32 F]

/-! ## Fields -/

namespace Sender

variable (sdr : Sender F) (n : Nat)

@[simp] theorem lastSent_retransmit : (sdr.retransmit n).lastSent = n := rfl
@[simp] theorem lastAcked_retransmit : (sdr.retransmit n).lastAcked = n := rfl
@[simp] theorem pktNum_retransmit : (sdr.retransmit n).pktNum = sdr.pktNum := rfl

@[simp] theorem lastSent_advance : (sdr.advance n).lastSent = sdr.lastSent := rfl
@[simp] theorem lastAcked_advance : (sdr.advance n).lastAcked = n := rfl
@[simp] theorem pktNum_advance : (sdr.advance n).pktNum = sdr.pktNum := rfl

/-- A sender up to the flags no other step reads: the timer's and the count of
duplicate ACKs. -/
structure Same (sdr sdr' : Sender F) : Prop where
  ssthresh : sdr'.ssthresh = sdr.ssthresh
  cwnd : sdr'.cwnd = sdr.cwnd
  lastSent : sdr'.lastSent = sdr.lastSent
  lastAcked : sdr'.lastAcked = sdr.lastAcked
  lastAvailable : sdr'.lastAvailable = sdr.lastAvailable
  pktNum : sdr'.pktNum = sdr.pktNum
  pkts : sdr'.pkts = sdr.pkts
  id : sdr'.timer.id = sdr.timer.id
  pReceiver : sdr'.pReceiver = sdr.pReceiver

omit [NatCast F] [Add F] [Div F] [LE F] [DecidableLE F] [TruncU32 F] in
theorem same_stopTimer : Same sdr sdr.stopTimer := ⟨rfl, rfl, rfl, rfl, rfl, rfl, rfl, rfl, rfl⟩

end Sender

/-! ## Steps -/

/-- What `process_ACK` does to a sender it leaves in the pool. -/
inductive Sender.AckStep (sdr : Sender F) (n : Nat) : Sender F → Prop
  /-- Nothing, as far as sending is concerned. -/
  | ignored {sdr'} : Same sdr sdr' → AckStep sdr n sdr'
  | advanced {sdr'} : n < sdr.pktNum → sdr.lastAcked < n → Same (sdr.advance n) sdr' →
      AckStep sdr n sdr'
  | retransmitted {sdr'} : n < sdr.pktNum → n = sdr.lastAcked → Same (sdr.retransmit n) sdr' →
      AckStep sdr n sdr'

/-- `process_ACK` either removes the sender, on a final ACK once everything was
sent, or makes one of the steps above. -/
theorem Sender.processACK_cases (sdr : Sender F) (n : Nat) :
    ((sdr.processACK n).2 = true ∧ sdr.pktNum ≤ n ∧ sdr.pktNum ≤ sdr.lastSent ∧
      (sdr.processACK n).1 = sdr.stopTimer) ∨
    ((sdr.processACK n).2 = false ∧ (sdr.pktNum ≤ n → sdr.lastSent < sdr.pktNum) ∧
      sdr.AckStep n (sdr.processACK n).1) := by
  by_cases hfinal : sdr.pktNum ≤ n
  · by_cases hsent : sdr.lastSent < sdr.pktNum
    · have h : sdr.processACK n = (sdr, false) := by rw [processACK, if_pos hfinal, if_pos hsent]
      rw [h]
      exact .inr ⟨rfl, fun _ ↦ hsent, .ignored ⟨rfl, rfl, rfl, rfl, rfl, rfl, rfl, rfl, rfl⟩⟩
    · have h : sdr.processACK n = (sdr.stopTimer, true) := by
        rw [processACK, if_pos hfinal, if_neg hsent]
      rw [h]
      exact .inl ⟨rfl, hfinal, Nat.le_of_not_lt hsent, rfl⟩
  · refine .inr ?_
    have hn : n < sdr.pktNum := Nat.lt_of_not_le hfinal
    by_cases hnew : sdr.lastAcked < n
    · have h : sdr.processACK n = ((sdr.advance n).stopTimer, false) := by
        rw [processACK, if_neg hfinal, if_pos hnew]
      rw [h]
      exact ⟨rfl, fun hc ↦ absurd hc hfinal, .advanced hn hnew (same_stopTimer _)⟩
    by_cases hdup : n = sdr.lastAcked
    · have h : sdr.processACK n = ((sdr.duplicate n).stopTimer, false) := by
        rw [processACK, if_neg hfinal, if_neg hnew, if_pos hdup]
      rw [h]
      refine ⟨rfl, fun hc ↦ absurd hc hfinal, ?_⟩
      by_cases hmax : dupAckMax ≤ sdr.dupAckNum + 1
      · refine .retransmitted hn hdup ?_
        rw [duplicate, if_pos hmax]
        exact ⟨rfl, rfl, rfl, rfl, rfl, rfl, rfl, rfl, rfl⟩
      · refine .ignored ?_
        rw [duplicate, if_neg hmax]
        exact ⟨rfl, rfl, rfl, rfl, rfl, rfl, rfl, rfl, rfl⟩
    · have h : sdr.processACK n = (sdr.stopTimer, false) := by
        rw [processACK, if_neg hfinal, if_neg hnew, if_neg hdup]
      rw [h]
      exact ⟨rfl, fun hc ↦ absurd hc hfinal, .ignored (same_stopTimer _)⟩

namespace SenderThread

variable (t : SenderThread F)

omit [NatCast F] [Add F] [Div F] [LE F] [DecidableLE F] [TruncU32 F]

/-- The sender after sending the first packet of the window: the timer is set. -/
theorem trySend_first (h : t.CanSend) (hfirst : t.sdr.lastSent = t.sdr.lastAcked) :
    t.trySend =
      ({ sdr := { t.sdr with
          lastSent := t.sdr.lastSent + 1
          timer := { running := true, id := t.sdr.lastAcked } }
         timeouts := t.sdr.lastAcked :: t.timeouts
         phase := t.phase },
        t.sdr.pkts[t.sdr.lastSent]?.toList) := by
  rw [trySend, if_pos h, if_pos hfirst]
  rfl

/-- The sender after sending any other packet. -/
theorem trySend_next (h : t.CanSend) (hnext : t.sdr.lastSent ≠ t.sdr.lastAcked) :
    t.trySend =
      ({ t with sdr := { t.sdr with lastSent := t.sdr.lastSent + 1 } },
        t.sdr.pkts[t.sdr.lastSent]?.toList) := by
  rw [trySend, if_pos h, if_neg hnext]

theorem trySend_of_not_canSend (h : ¬ t.CanSend) : t.trySend = (t, []) := if_neg h

end SenderThread

/-! ## The steps of a sender -/

namespace Sending

/-- Everything a step of a sender can do: its thread starts, an iteration sends
nothing, the first packet of the window or another one, a timeout counts or not,
and an acknowledgment finds no sender, ends the upload or is one of the above. -/
inductive Change (s : Sending F) : SendEvent → Sending F → Prop
  | begun : Change s .begin s.beginThread
  | idle : ¬ s.CanSend →
      Change s .iterate { s with phase := if s.Done then .returned else s.phase }
  | first : s.CanSend → s.sdr.lastSent = s.sdr.lastAcked → Change s .iterate
      { s with
        sdr := { s.sdr with
          lastSent := s.sdr.lastSent + 1
          timer := { running := true, id := s.sdr.lastAcked } }
        timeouts := s.sdr.lastAcked :: s.timeouts
        phase := if s.Done then .returned else s.phase }
  | next : s.CanSend → s.sdr.lastSent ≠ s.sdr.lastAcked → Change s .iterate
      { s with
        sdr := { s.sdr with lastSent := s.sdr.lastSent + 1 }
        phase := if s.Done then .returned else s.phase }
  | rewound {id} : s.sdr.timer.id = id → Change s (.timeout id)
      { s with sdr := s.sdr.retransmit id, timeouts := s.timeouts.erase id }
  | void {id} : s.sdr.timer.id ≠ id → Change s (.timeout id)
      { s with timeouts := s.timeouts.erase id }
  | absent {n} : s.pooled = false → Change s (.ack n) s
  | ended {n} : s.sdr.pktNum ≤ n → s.sdr.pktNum ≤ s.sdr.lastSent → Change s (.ack n)
      { s with sdr := s.sdr.stopTimer, pooled := false }
  | kept {n sdr} : s.pooled = true → s.sdr.AckStep n sdr → Change s (.ack n) { s with sdr := sdr }

theorem step_cases {s s' : Sending F} {e : SendEvent} (h : s.step e = some s') : s.Change e s' := by
  cases e with
  | begin =>
      simp only [step, Option.ite_none_right_eq_some, Option.some.injEq] at h
      obtain ⟨-, rfl⟩ := h
      exact .begun
  | iterate =>
      simp only [step, Option.ite_none_right_eq_some, Option.some.injEq] at h
      obtain ⟨-, rfl⟩ := h
      rw [iterate, SenderThread.iterate]
      by_cases hcan : s.CanSend
      · by_cases hfirst : s.sdr.lastSent = s.sdr.lastAcked
        · rw [SenderThread.trySend_first _ hcan hfirst]
          exact .first hcan hfirst
        · rw [SenderThread.trySend_next _ hcan hfirst]
          exact .next hcan hfirst
      · rw [SenderThread.trySend_of_not_canSend _ hcan]
        exact .idle hcan
  | timeout id =>
      simp only [step, Option.ite_none_right_eq_some, Option.some.injEq] at h
      obtain ⟨-, rfl⟩ := h
      rw [timeout, SenderThread.timeout, Sender.tStart]
      split
      · next hid => exact .rewound hid
      · next hid => exact .void hid
  | ack n =>
      simp only [step, Option.some.injEq] at h
      subst h
      rw [processACK]
      split
      · next hin =>
          rcases s.sdr.processACK_cases n with ⟨hout, hfinal, hsent, heq⟩ | ⟨hkeep, -, hstep⟩
          · rw [hout, heq]
            exact .ended hfinal hsent
          · rw [hkeep, Bool.not_false, ← hin]
            exact .kept hin hstep
      · next hout => exact .absent (Bool.eq_false_of_not_eq_true hout)

/-- The timeout of the packet the timer shows takes the sender back to it. -/
theorem sdr_timeout {s : Sending F} {id : Nat} (h : s.sdr.timer.id = id) :
    (s.timeout id).sdr = s.sdr.retransmit id := if_pos h

/-! ## Invariants of a sender -/

/-- A property of senders that does not depend on the flags holds after a step if
it survives each of the changes a step can make. -/
theorem step_preserves {P : Sender F → Prop}
    (hsame : ∀ sdr sdr', sdr.Same sdr' → P sdr → P sdr')
    (hadvance : ∀ sdr n, P sdr → n < sdr.pktNum → sdr.lastAcked < n → P (sdr.advance n))
    (hback : ∀ sdr n, P sdr → n = sdr.lastAcked ∨ n = sdr.timer.id → P (sdr.retransmit n))
    (harm : ∀ sdr, P sdr → P { sdr with timer := { running := true, id := sdr.lastAcked } })
    (hsend : ∀ sdr, P sdr → sdr.lastSent < sdr.lastAvailable → sdr.lastSent < sdr.pktNum →
      P { sdr with lastSent := sdr.lastSent + 1 })
    {s s' : Sending F} {e : SendEvent} (hP : P s.sdr) (h : s.step e = some s') : P s'.sdr := by
  cases step_cases h with
  | begun => exact harm s.sdr hP
  | idle => exact hP
  | first hcan => exact hsend _ (harm _ hP) hcan.1 hcan.2
  | next hcan => exact hsend _ hP hcan.1 hcan.2
  | rewound hid => exact hback _ _ hP (.inr hid.symm)
  | void => exact hP
  | absent => exact hP
  | ended => exact hsame _ _ (Sender.same_stopTimer _) hP
  | kept _ hack =>
      cases hack with
      | ignored heq => exact hsame _ _ heq hP
      | advanced hn hnew heq => exact hsame _ _ heq (hadvance _ _ hP hn hnew)
      | retransmitted hn hdup heq => exact hsame _ _ heq (hback _ _ hP (.inl hdup))

/-- What a step never changes. -/
theorem step_frame {s s' : Sending F} {e : SendEvent} (h : s.step e = some s') :
    s'.sdr.pkts = s.sdr.pkts ∧ s'.sdr.pktNum = s.sdr.pktNum ∧
      s'.sdr.pReceiver = s.sdr.pReceiver := by
  refine step_preserves (P := fun sdr ↦ sdr.pkts = s.sdr.pkts ∧ sdr.pktNum = s.sdr.pktNum ∧
    sdr.pReceiver = s.sdr.pReceiver) ?_ ?_ ?_ ?_ ?_ ⟨rfl, rfl, rfl⟩ h
  · rintro sdr sdr' hsame ⟨hpkts, hnum, hpeer⟩
    exact ⟨hsame.pkts.trans hpkts, hsame.pktNum.trans hnum, hsame.pReceiver.trans hpeer⟩
  · exact fun _ _ hP _ _ ↦ hP
  · exact fun _ _ hP _ ↦ hP
  · exact fun _ hP ↦ hP
  · exact fun _ hP _ _ ↦ hP

omit [NatCast F] [Add F] [Div F] [LE F] [DecidableLE F] [TruncU32 F] in
/-- The packets of an iteration: the one after `last_sent`, if there is room for it. -/
theorem packets_of_canSend {s : Sending F} (hcan : s.CanSend) :
    s.iterate.2 = s.sdr.pkts[s.sdr.lastSent]?.toList := by
  show s.toSenderThread.trySend.2 = _
  by_cases hfirst : s.sdr.lastSent = s.sdr.lastAcked
  · rw [SenderThread.trySend_first _ hcan hfirst]
  · rw [SenderThread.trySend_next _ hcan hfirst]

omit [NatCast F] [Add F] [Div F] [LE F] [DecidableLE F] [TruncU32 F] in
/-- An iteration sends packets of the chunk only. -/
theorem mem_iterate {s : Sending F} {p : Packet} (h : p ∈ s.iterate.2) :
    s.sdr.pkts[s.sdr.lastSent]? = some p := by
  by_cases hcan : s.CanSend
  · rw [packets_of_canSend hcan, Option.mem_toList] at h
    exact h
  · have hnone : s.iterate.2 = [] :=
      congrArg Prod.snd (SenderThread.trySend_of_not_canSend s.toSenderThread hcan)
    rw [hnone] at h
    exact absurd h List.not_mem_nil

end Sending

/-- The bounds on a sender's counters that hold whatever the window is: in
particular the loop of `process_sender` never sees its exit test true. -/
structure Sender.Ranges (sdr : Sender F) : Prop where
  acked_lt : sdr.lastAcked < sdr.pktNum
  timer_le : sdr.timer.id ≤ sdr.lastAcked
  sent_le : sdr.lastSent ≤ sdr.pktNum

omit [Add F] [Div F] [LE F] [DecidableLE F] [TruncU32 F] in
theorem Sender.ranges_newSender {pRcvr : Option PeerRef} {pkts : List Packet} {num : Nat}
    (h : 0 < num) : (newSender pRcvr pkts num : Sender F).Ranges := ⟨h, Nat.le_refl 0, Nat.zero_le _⟩

/-- The bounds survive every step of a sender. -/
theorem Sending.ranges_step {s s' : Sending F} {e : SendEvent} (hs : s.sdr.Ranges)
    (h : s.step e = some s') : s'.sdr.Ranges := by
  refine step_preserves ?_ ?_ ?_ ?_ ?_ hs h
  · intro sdr sdr' hsame hr
    refine ⟨?_, ?_, ?_⟩
    · rw [hsame.lastAcked, hsame.pktNum]
      exact hr.acked_lt
    · rw [hsame.lastAcked, hsame.id]
      exact hr.timer_le
    · rw [hsame.lastSent, hsame.pktNum]
      exact hr.sent_le
  · intro sdr n hr hn hnew
    exact ⟨hn, Nat.le_of_lt (Nat.lt_of_le_of_lt hr.timer_le hnew), hr.sent_le⟩
  · intro sdr n hr hn
    have hle : n ≤ sdr.lastAcked := by
      rcases hn with rfl | rfl
      · exact Nat.le_refl _
      · exact hr.timer_le
    have hge : sdr.timer.id ≤ n := by
      rcases hn with rfl | rfl
      · exact hr.timer_le
      · exact Nat.le_refl _
    have hlt : n < sdr.pktNum := Nat.lt_of_le_of_lt hle hr.acked_lt
    exact ⟨hlt, hge, Nat.le_of_lt hlt⟩
  · intro sdr hr
    exact ⟨hr.acked_lt, Nat.le_refl _, hr.sent_le⟩
  · intro sdr hr _ hlt
    exact ⟨hr.acked_lt, hr.timer_le, hlt⟩

end BitTorrent
