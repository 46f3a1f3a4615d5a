import BitTorrent.Upload.Safety
import BitTorrent.Upload.Window

/-!
# Progress of an upload

Whatever was lost, a transfer that is not complete can go on.  A timer is armed
for the first packet of the window only and is never cancelled for good, so
either it is still pending or everything the sender counts as sent was
acknowledged: this is `Sending.Covered`, and with a window that never closes it
makes the sender able to send the first packet of its window again.
-/

namespace BitTorrent

set_option linter.unusedSectionVars false

variable {F : Type} [NatCast F] [Add F] [Div F] [LE F] [DecidableLE F] [TruncU32 F]

/-! ## Timers -/

namespace Sending

/-- A timeout that still counts is pending, or nothing sent is unacknowledged. -/
def Covered (s : Sending F) : Prop :=
  s.sdr.timer.id ∈ s.timeouts ∨ s.sdr.lastSent ≤ s.sdr.lastAcked

variable {s s' : Sending F} {e : SendEvent}

/-- The timer keeps covering the window: acknowledgments only shrink what is
unacknowledged, and a timeout that counts rolls everything back. -/
theorem covered_step (hs : s.Covered) (h : s.step e = some s') : s'.Covered := by
  cases step_cases h with
  | begun | first => exact .inl (List.mem_cons_self ..)
  | next _ hnext => exact hs.imp_right fun hle ↦ Nat.lt_of_le_of_ne hle hnext
  | rewound => exact .inr (Nat.le_refl _)
  | void hid => exact hs.imp_left (List.mem_erase_of_ne hid).mpr
  | kept _ hack =>
      cases hack with
      | ignored heq =>
          rw [Covered, heq.id, heq.lastSent, heq.lastAcked]
          exact hs
      | advanced _ hnew heq =>
          rw [Covered, heq.id, heq.lastSent, heq.lastAcked]
          exact hs.imp_right fun hle ↦ hle.trans (Nat.le_of_lt hnew)
      | retransmitted _ _ heq =>
          rw [Covered, heq.lastSent, heq.lastAcked]
          exact .inr (Nat.le_refl _)
  | idle | absent | ended => exact hs

/-- The thread running `process_sender` never sees its exit test true. -/
theorem running_step (hr : s.sdr.Ranges) (hs : s.phase ≠ .returned) (h : s.step e = some s') :
    s'.phase ≠ .returned := by
  have hdone : ¬ s.Done := Nat.not_le_of_lt hr.acked_lt
  cases step_cases h with
  | begun => rintro ⟨⟩
  | idle | first | next =>
      rw [if_neg hdone]
      exact hs
  | _ => exact hs

end Sending

namespace Upload

/-- The event is not the loss of a packet. -/
abbrev NoLoss (e : Event) : Prop := ¬ e.IsLoss

/-- What holds in every reachable state of an upload, with exact rationals for
`cwnd`. -/
structure Live (content : ChunkData) (u : Upload ℚ) : Prop where
  safe : u.Safe content
  window : u.sdr.WindowOk
  covered : u.sending.Covered
  running : u.sending.phase ≠ .returned

variable {content : ChunkData} {u u' : Upload ℚ}

theorem Live.step (h : u.Live content) {e : Event} (hstep : u.step e = some u') :
    u'.Live content := by
  have hsafe := h.safe.step hstep
  cases step_cases hstep with
  | begins hs | sends hs | expires hs | acked _ hs =>
      exact ⟨hsafe, Sending.windowOk_step h.safe.ranges h.window hs,
        Sending.covered_step h.covered hs, Sending.running_step h.safe.ranges h.running hs⟩
  | arrives | network => exact ⟨hsafe, h.window, h.covered, h.running⟩

theorem live_init (pRcvr pSdr : PeerRef) (chunk : ChunkRef) (content buffer : ChunkData) :
    (init pRcvr pSdr chunk content buffer).Live content :=
  ⟨safe_init pRcvr pSdr chunk content buffer, Sender.windowOk_newSender, .inr (Nat.le_refl 0),
    fun h ↦ by cases h⟩

theorem Live.reaches (h : u.Live content) (hu : Machine.Reaches Upload.step u u') :
    u'.Live content :=
  hu.invariant (fun _ _ _ hl hstep ↦ Live.step hl hstep) h

/-- The sender can send, or the timeout that makes it send again is pending. -/
theorem Live.canSend_or_pending (h : u.Live content) :
    (u.sending.phase ≠ .returned ∧ u.sending.CanSend) ∨
      u.sdr.timer.id ∈ u.sending.timeouts := by
  rcases h.covered with hpending | hle
  · exact .inr hpending
  · exact .inl ⟨h.running, Nat.lt_of_le_of_lt hle h.window.acked_lt_available,
      Nat.lt_of_le_of_lt hle h.safe.ranges.acked_lt⟩

/-! ## Sending the first packet of the window -/

/-- The sender has just sent the first packet of its window, and nothing after it. -/
structure FrontSent (content : ChunkData) (u : Upload ℚ) : Prop where
  live : u.Live content
  looping : u.sending.phase = .looping
  sent : u.sdr.lastSent = u.sdr.lastAcked + 1
  timer : u.sdr.timer.id = u.sdr.lastAcked
  pending : u.sdr.lastAcked ∈ u.sending.timeouts
  inFlight : dataPacket content u.sdr.lastAcked ∈ u.data

/-- With everything sent acknowledged, the sender sends up to the first packet of
its window. -/
theorem Live.send_front (h : u.Live content) (hphase : u.sending.phase = .looping)
    (hle : u.sdr.lastSent ≤ u.sdr.lastAcked) :
    ∃ u', Machine.ReachesBy Upload.step NoLoss u u' ∧ u'.FrontSent content ∧
      u'.sdr.lastAcked = u.sdr.lastAcked ∧ u'.receiving = u.receiving ∧ u'.acks = u.acks ∧
      u'.sending.pooled = u.sending.pooled := by
  obtain ⟨k, hk⟩ := Nat.exists_eq_add_of_le hle
  have hacked := h.safe.ranges.acked_lt
  have hroom := h.window.acked_lt_available
  induction k generalizing u with
  | zero =>
      -- the first packet of the window goes out and its timer is armed
      have hfirst : u.sdr.lastSent = u.sdr.lastAcked := hk.symm
      have hcan : u.sending.CanSend := ⟨hfirst.trans_lt hroom, hfirst.trans_lt hacked⟩
      have hiter := Sending.iterate_first hcan hfirst hacked
      have hpkt : u.sdr.pkts[u.sdr.lastSent]?.toList = [dataPacket content u.sdr.lastAcked] := by
        rw [h.safe.pkts_eq, hfirst, getElem?_chunk2pkts (h.safe.num_eq ▸ hacked)]
        rfl
      have hstep := step_iterate hphase
      rw [hiter] at hstep
      refine ⟨_, .single (e := .iterate) id hstep,
        ⟨h.step hstep, hphase, ?_, rfl, List.mem_cons_self .., ?_⟩, rfl, rfl, rfl, rfl⟩
      · exact congrArg (· + 1) hfirst
      · rw [show u.sending.sdr.pkts[u.sending.sdr.lastSent]?.toList = _ from hpkt]
        exact List.mem_cons_self ..
  | succ k ih =>
      have hlt : u.sdr.lastSent < u.sdr.lastAcked := by
        rw [hk]
        exact Nat.lt_add_of_pos_right k.succ_pos
      have hcan : u.sending.CanSend := ⟨hlt.trans hroom, hlt.trans hacked⟩
      have hiter := Sending.iterate_next hcan (Nat.ne_of_lt hlt) hacked
      have hstep := step_iterate hphase
      rw [hiter] at hstep
      have hk' : u.sdr.lastAcked = u.sdr.lastSent + 1 + k := by omega
      obtain ⟨u', hreach, hfront, hrest⟩ := ih (h.step hstep) hphase hlt hk' hacked hroom
      exact ⟨u', .head (e := .iterate) id hstep hreach, hfront, hrest⟩

/-- A running sender can get to where it sends the first packet of its window
again, by letting the pending timeout fire. -/
theorem Live.rewind_looping (h : u.Live content) (hphase : u.sending.phase = .looping) :
    ∃ u', Machine.ReachesBy Upload.step NoLoss u u' ∧ u'.Live content ∧
      u'.sending.phase = .looping ∧ u'.sdr.lastSent ≤ u'.sdr.lastAcked ∧
      u'.receiving = u.receiving ∧ u'.acks = u.acks ∧ u'.sending.pooled = u.sending.pooled := by
  rcases h.covered with hpending | hle
  · have hstep := step_timeout hpending
    have hback : (u.sending.timeout u.sdr.timer.id).sdr = u.sdr.retransmit u.sdr.timer.id :=
      Sending.sdr_timeout rfl
    refine ⟨_, .single (e := .timeout u.sdr.timer.id) id hstep, h.step hstep, hphase, ?_, rfl,
      rfl, rfl⟩
    show (u.sending.timeout u.sdr.timer.id).sdr.lastSent ≤ _
    rw [hback]
    exact Nat.le_of_eq (congrArg Sender.lastAcked hback).symm
  · exact ⟨u, .refl u, h, hphase, hle, rfl, rfl, rfl⟩

/-- So can any sender, once its thread has started. -/
theorem Live.rewind (h : u.Live content) :
    ∃ u', Machine.ReachesBy Upload.step NoLoss u u' ∧ u'.Live content ∧
      u'.sending.phase = .looping ∧ u'.sdr.lastSent ≤ u'.sdr.lastAcked ∧
      u'.receiving = u.receiving ∧ u'.acks = u.acks ∧ u'.sending.pooled = u.sending.pooled := by
  cases hphase : u.sending.phase with
  | returned => exact absurd hphase h.running
  | looping => exact h.rewind_looping hphase
  | created =>
      have hstep := step_begin hphase
      obtain ⟨u', hreach, hrest⟩ := (h.step hstep).rewind_looping rfl
      exact ⟨u', .head (e := .begin) id hstep hreach, hrest⟩

/-! ## Delivering it -/

/-- The receiver has just stored the first packet of the sender's window, and
its acknowledgment is on the way. -/
structure FrontStored (content : ChunkData) (u : Upload ℚ) : Prop where
  live : u.Live content
  looping : u.sending.phase = .looping
  pooled : u.sending.pooled = true
  acked : u.sdr.lastAcked + 1 = u.rcvr.lastRcvd
  sent : u.sdr.lastSent = u.rcvr.lastRcvd
  timer : u.sdr.timer.id = u.sdr.lastAcked
  pending : u.sdr.lastAcked ∈ u.sending.timeouts
  inFlight : makeACK (UInt32.ofNat u.rcvr.lastRcvd) ∈ u.acks

/-- The receiver waits for the packet that was sent, and stores it. -/
theorem FrontSent.deliver (h : u.FrontSent content) (hpooled : u.sending.pooled = true)
    (hlt : u.rcvr.lastRcvd < dataPktNum) (heq : u.sdr.lastAcked = u.rcvr.lastRcvd) :
    ∃ u', Machine.ReachesBy Upload.step NoLoss u u' ∧ u'.FrontStored content ∧
      u'.rcvr.lastRcvd = u.rcvr.lastRcvd + 1 := by
  have hflight : dataPacket content u.rcvr.lastRcvd ∈ u.data := heq ▸ h.inFlight
  obtain ⟨chunk, hproc, -⟩ := Receiving.processDATA_expected content h.live.safe.receiving hlt
  have hstep := step_deliverData hflight hproc
  refine ⟨_, .single (e := .deliverData _) id hstep, ⟨h.live.step hstep, h.looping, hpooled, ?_, ?_,
    h.timer, h.pending, List.mem_cons_self ..⟩, rfl⟩
  · exact congrArg (· + 1) heq
  · exact h.sent.trans (congrArg (· + 1) heq)

/-- The receiver is ahead of the packet that was sent: its repeated
acknowledgment brings the sender's window up to it. -/
theorem FrontSent.catch_up (h : u.FrontSent content) (hpooled : u.sending.pooled = true)
    (hlt : u.rcvr.lastRcvd < dataPktNum) (hne : u.sdr.lastAcked ≠ u.rcvr.lastRcvd) :
    ∃ u', Machine.ReachesBy Upload.step NoLoss u u' ∧ u'.Live content ∧
      u'.sending.phase = .looping ∧ u'.sending.pooled = true ∧
      u'.sdr.lastSent ≤ u'.sdr.lastAcked ∧ u'.sdr.lastAcked = u'.rcvr.lastRcvd ∧
      u'.receiving = u.receiving := by
  have hsafe := h.live.safe
  have hbehind : u.sdr.lastAcked < u.rcvr.lastRcvd := Nat.lt_of_le_of_ne hsafe.acked_le hne
  have hother : ¬ u.rcvr.Expects (dataPacket content u.sdr.lastAcked) := by
    intro hexp
    rw [Receiver.Expects, seqNum_dataPacket (hbehind.trans hlt),
      show u.rcvr.nextExpected = _ from hsafe.receiving.next_eq] at hexp
    exact hne (Nat.succ_inj.mp hexp)
  have hstep := step_deliverData h.inFlight (Receiving.processDATA_other hsafe.receiving hlt hother)
  have hack := step_deliverAck (u := { u with
    data := u.data.erase (dataPacket content u.sdr.lastAcked)
    acks := makeACK (UInt32.ofNat u.rcvr.lastRcvd) :: u.acks }) (List.mem_cons_self ..)
  have hnum : u.rcvr.lastRcvd < u.sending.sdr.pktNum := hlt.trans_eq hsafe.num_eq.symm
  have hadvance := Sending.processACK_new hpooled hnum hbehind
  rw [ackNum_toNat_makeACK (show u.rcvr.lastRcvd ≤ _ from hlt.le), hadvance] at hack
  refine ⟨_, .head (e := .deliverData _) id hstep (.single (e := .deliverAck _) id hack),
    (h.live.step hstep).step hack, h.looping, hpooled, h.sent.trans_le hbehind, rfl, rfl⟩

/-! ## Progress -/

/-- From every state with an incomplete receiver there is a way, without further
loss, to have it store its next packet as the only one in the window. -/
theorem Live.progress (h : u.Live content) (hlt : u.rcvr.lastRcvd < dataPktNum) :
    ∃ u', Machine.ReachesBy Upload.step NoLoss u u' ∧ u'.FrontStored content ∧
      u'.rcvr.lastRcvd = u.rcvr.lastRcvd + 1 := by
  have hpooled : u.sending.pooled = true := by
    by_contra hout
    exact absurd (h.safe.removed (Bool.eq_false_of_not_eq_true hout)) (Nat.ne_of_lt hlt)
  obtain ⟨u₁, hreach₁, hlive₁, hphase₁, hle₁, hrcv₁, -, hpool₁⟩ := h.rewind
  obtain ⟨u₂, hreach₂, hfront, hacked₂, hrcv₂, -, hpool₂⟩ := hlive₁.send_front hphase₁ hle₁
  have hrcvr₂ : u₂.rcvr = u.rcvr := congrArg Receiving.rcvr (hrcv₂.trans hrcv₁)
  have hpooled₂ : u₂.sending.pooled = true := hpool₂.trans (hpool₁.trans hpooled)
  have hlt₂ : u₂.rcvr.lastRcvd < dataPktNum := hrcvr₂ ▸ hlt
  by_cases heq : u₂.sdr.lastAcked = u₂.rcvr.lastRcvd
  · obtain ⟨u₃, hreach₃, hstored, hrcvd⟩ := hfront.deliver hpooled₂ hlt₂ heq
    exact ⟨u₃, hreach₁.trans (hreach₂.trans hreach₃), hstored, by rw [hrcvd, hrcvr₂]⟩
  · obtain ⟨u₃, hreach₃, hlive₃, hphase₃, hpooled₃, hle₃, heq₃, hrcv₃⟩ :=
      hfront.catch_up hpooled₂ hlt₂ heq
    obtain ⟨u₄, hreach₄, hfront₄, hacked₄, hrcv₄, -, hpool₄⟩ := hlive₃.send_front hphase₃ hle₃
    have hrcvr₄ : u₄.rcvr = u₂.rcvr := congrArg Receiving.rcvr (hrcv₄.trans hrcv₃)
    have heq₄ : u₄.sdr.lastAcked = u₄.rcvr.lastRcvd := by
      rw [hacked₄, heq₃]
      exact congrArg (fun r ↦ r.rcvr.lastRcvd) hrcv₄.symm
    obtain ⟨u₅, hreach₅, hstored, hrcvd⟩ :=
      hfront₄.deliver (hpool₄.trans hpooled₃) (hrcvr₄ ▸ hlt₂) heq₄
    exact ⟨u₅, hreach₁.trans (hreach₂.trans (hreach₃.trans (hreach₄.trans hreach₅))), hstored,
      by rw [hrcvd, hrcvr₄, hrcvr₂]⟩

/-- So there is one to any later packet. -/
theorem Live.progress_to (h : u.Live content) {n : Nat} (hn : u.rcvr.lastRcvd < n)
    (hle : n ≤ dataPktNum) :
    ∃ u', Machine.ReachesBy Upload.step NoLoss u u' ∧ u'.FrontStored content ∧
      u'.rcvr.lastRcvd = n := by
  induction n, hn using Nat.le_induction with
  | base => exact h.progress hle
  | succ n _ ih =>
      obtain ⟨u₁, hreach₁, hstored₁, hrcvd₁⟩ := ih (Nat.le_of_succ_le hle)
      obtain ⟨u₂, hreach₂, hstored₂, hrcvd₂⟩ := hstored₁.live.progress (hrcvd₁ ▸ hle)
      exact ⟨u₂, hreach₁.trans hreach₂, hstored₂, by rw [hrcvd₂, hrcvd₁]⟩

/-- No loss wedges a transfer: from every reachable state with an incomplete
receiver some continuation without further loss has it receive more, and some
has it complete, because the sender can send or a timeout that counts is
pending. -/
theorem no_loss_wedges {pRcvr pSdr : PeerRef} {chunk : ChunkRef} {content buffer : ChunkData}
    (h : Machine.Reaches step (init pRcvr pSdr chunk content buffer) u)
    (hlt : u.rcvr.lastRcvd < u.sdr.pktNum) :
    (∃ u', Machine.ReachesBy step NoLoss u u' ∧ u.rcvr.lastRcvd < u'.rcvr.lastRcvd) ∧
    (∃ u', Machine.ReachesBy step NoLoss u u' ∧ u'.rcvr.lastRcvd = u'.sdr.pktNum ∧
      u'.receiving.opened = false) ∧
    ((u.sending.phase ≠ .returned ∧ u.sending.CanSend) ∨
      u.sdr.timer.id ∈ u.sending.timeouts) := by
  have hlive := (live_init pRcvr pSdr chunk content buffer).reaches h
  have hlt' : u.rcvr.lastRcvd < dataPktNum := hlive.safe.num_eq ▸ hlt
  refine ⟨?_, ?_, hlive.canSend_or_pending⟩
  · obtain ⟨u', hreach, -, hrcvd⟩ := hlive.progress hlt'
    exact ⟨u', hreach, hrcvd ▸ Nat.lt_succ_self _⟩
  · obtain ⟨u', hreach, hstored, hrcvd⟩ := hlive.progress_to hlt' (Nat.le_refl _)
    refine ⟨u', hreach, hrcvd.trans hstored.live.safe.num_eq.symm, ?_⟩
    rw [← Bool.not_eq_true, hstored.live.safe.receiving.opened_iff]
    exact Nat.not_lt_of_le (Nat.le_of_eq hrcvd.symm)

/-- After an ACK and a DATA packet have been lost a transfer can still be brought to its end. -/
theorem no_loss_wedges_lossy : ∃ u u' : Upload ℚ,
    Machine.run step (init 0 1 0 (.fill 0) (.fill 0)) lossyStart = some u ∧ u.rcvr.lastRcvd = 1 ∧
      Machine.ReachesBy step NoLoss u u' ∧ u'.rcvr.lastRcvd = u'.sdr.pktNum ∧
      u'.receiving.opened = false := by
  obtain ⟨u, hrun, -, -, hrcvd, -, hnum⟩ := run_lossyStart
  have hlt : u.rcvr.lastRcvd < u.sdr.pktNum := by
    rw [hrcvd, hnum]
    decide
  obtain ⟨-, ⟨u', hreach, hend⟩, -⟩ := no_loss_wedges ⟨_, hrun⟩ hlt
  exact ⟨u, u', hrun, hrcvd, hreach, hend⟩

end Upload

end BitTorrent
