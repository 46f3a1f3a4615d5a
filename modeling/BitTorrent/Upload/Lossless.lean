import BitTorrent.Library.Channel
import BitTorrent.Upload.Duplicates
import BitTorrent.Upload.Window

/-!
# An upload without losses

Over a network that keeps every packet and keeps them in order, and with no timeout firing,
the packets in flight are known exactly: the data between what the receiver has and what was
sent, and the acknowledgments between what the sender knows and what the receiver has.  Every
acknowledgment is then the next one, so none is a duplicate and each moves the window on, and
the transfer goes on until the last one takes the sender out of its pool.
-/

namespace BitTorrent

/-! ## The arithmetic of a window -/

section

variable (F : Type) [NatCast F] [Add F] [Div F] [LE F] [TruncU32 F]

/-- What an open window takes of the arithmetic of `cwnd`: a window between one packet and
`k` grows to one between one packet and `k + 1`, and reaches past the packet it starts
after.  It holds of exact rationals, and of a floating-point format in which small whole
numbers are exact and rounding is monotone. -/
class WindowArith : Prop where
  one_le_one : ((1 : Nat) : F) ≤ ((1 : Nat) : F)
  slow {c : F} {k : Nat} : k < 2 ^ 16 → ((1 : Nat) : F) ≤ c → c ≤ (k : F) →
    ((1 : Nat) : F) ≤ c + ((1 : Nat) : F) ∧ c + ((1 : Nat) : F) ≤ ((k + 1 : Nat) : F)
  beyond {c : F} {k : Nat} : k < 2 ^ 16 → ((1 : Nat) : F) ≤ c → c ≤ (k : F) →
    ((1 : Nat) : F) ≤ c + ((1 : Nat) : F) / c ∧ c + ((1 : Nat) : F) / c ≤ ((k + 1 : Nat) : F)
  edge {c : F} {n k : Nat} : n < 2 ^ 16 → k < 2 ^ 16 → ((1 : Nat) : F) ≤ c → c ≤ (k : F) →
    n < truncU32 ((n : F) + c)

end

instance : WindowArith ℚ where
  one_le_one := le_refl _
  slow {c k} _ hone hle := by
    push_cast at hone ⊢
    exact ⟨by linarith, by linarith⟩
  beyond {c k} _ hone hle := by
    push_cast at hone ⊢
    have hpos : (0 : ℚ) < c := zero_lt_one.trans_le hone
    have hdiv : 1 / c ≤ 1 := (div_le_one hpos).mpr hone
    have hdiv' : 0 < 1 / c := div_pos zero_lt_one hpos
    exact ⟨by linarith, by linarith⟩
  edge _ _ hone _ := Sender.lt_truncU32_add (by exact_mod_cast hone)

set_option linter.unusedSectionVars false

variable {F : Type} [NatCast F] [Add F] [Div F] [LE F] [DecidableLE F] [TruncU32 F]

namespace Sender

/-- The window is open, and no wider than the acknowledgments so far have made it. -/
structure Open (sdr : Sender F) : Prop where
  one_le : ((1 : Nat) : F) ≤ sdr.cwnd
  le : sdr.cwnd ≤ ((sdr.lastAcked + 1 : Nat) : F)
  acked_lt : sdr.lastAcked < sdr.lastAvailable

variable [WindowArith F] {sdr : Sender F}

theorem open_newSender (pRcvr : Option PeerRef) (pkts : List Packet) (num : Nat) :
    (newSender pRcvr pkts num : Sender F).Open :=
  ⟨WindowArith.one_le_one, WindowArith.one_le_one, Nat.zero_lt_one⟩

/-- The next acknowledgment keeps it open. -/
theorem Open.advance (h : sdr.Open) (hlt : sdr.lastAcked + 1 < 2 ^ 16) :
    (sdr.advance (sdr.lastAcked + 1)).Open := by
  refine ⟨?_, ?_, WindowArith.edge hlt hlt h.one_le h.le⟩
  · rw [Sender.advance]
    split
    · exact (WindowArith.slow hlt h.one_le h.le).1
    · exact (WindowArith.beyond hlt h.one_le h.le).1
  · rw [Sender.advance]
    split
    · exact (WindowArith.slow hlt h.one_le h.le).2
    · exact (WindowArith.beyond hlt h.one_le h.le).2

end Sender

namespace Upload

/-! ## The system -/

/-- What can happen during an upload over such a network. -/
inductive FifoEvent where
  /-- The thread running `process_sender` starts. -/
  | begin
  /-- One iteration of its loop. -/
  | iterate
  /-- The oldest DATA packet arrives. -/
  | data
  /-- The oldest ACK packet arrives. -/
  | ack
deriving DecidableEq, Repr

/-- The steps of such an upload. -/
def fifoStep (u : Upload F) : FifoEvent → Option (Upload F)
  | .begin => u.step .begin
  | .iterate => u.step .iterate
  | .data => (Channel.receive u.data).bind fun (p, data) ↦
      (u.receiving.processDATA p).map fun (r, replies) ↦
        { u with receiving := r, data := data, acks := replies ++ u.acks }
  | .ack => (Channel.receive u.acks).bind fun (p, acks) ↦
      (u.sending.step (.ack p.header.ackNum.toNat)).map fun s ↦
        { u with sending := s, acks := acks }

/-- An iteration that finds no room in the window, or nothing left to send. -/
def Idle (u : Upload F) (e : FifoEvent) : Prop := e = .iterate ∧ ¬ u.sending.CanSend

instance (u : Upload F) (e : FifoEvent) : Decidable (u.Idle e) :=
  inferInstanceAs (Decidable (_ ∧ _))

/-- The step calls `retransmit`. -/
def Retransmits (u : Upload F) : FifoEvent → Prop
  | .begin | .iterate | .data => False
  | .ack => ∃ p acks, Channel.receive u.acks = some (p, acks) ∧
      u.sending.Retransmits (.ack p.header.ackNum.toNat)

section Enabled

variable {u : Upload F}

theorem fifoStep_data {p : Packet} {data : List Packet} {r : Receiving} {replies : List Packet}
    (h : Channel.receive u.data = some (p, data)) (hproc : u.receiving.processDATA p = some (r, replies)) :
    u.fifoStep .data = some { u with receiving := r, data := data, acks := replies ++ u.acks } := by
  simp only [fifoStep, h, Option.bind_some, hproc, Option.map_some]

theorem fifoStep_ack {p : Packet} {acks : List Packet} (h : Channel.receive u.acks = some (p, acks)) :
    u.fifoStep .ack = some
      { u with sending := u.sending.processACK p.header.ackNum.toNat, acks := acks } := by
  simp only [fifoStep, h, Option.bind_some, Sending.step, Option.map_some]

end Enabled

/-- The acknowledgment of the first `n` packets. -/
def ackPacket (n : Nat) : Packet := makeACK (UInt32.ofNat n)

/-- How many packets the sender knows to have arrived. -/
def acked (u : Upload F) : Nat := if u.sending.pooled then u.sdr.lastAcked else dataPktNum

/-- What holds in every state of a lossless upload: both channels carry exactly what was sent
into them and not received yet. -/
structure Lossless (content buffer : ChunkData) (u : Upload F) : Prop where
  ranges : u.sdr.Ranges
  pkts_eq : u.sdr.pkts = (chunk2pkts content).1
  num_eq : u.sdr.pktNum = dataPktNum
  window : u.sdr.Open
  running : u.sending.phase ≠ .returned
  created : u.sending.phase = .created → u.sdr.lastSent = 0
  receiving : u.receiving.Ok
  acked_le : u.acked ≤ u.rcvr.lastRcvd
  rcvd_le : u.rcvr.lastRcvd ≤ u.sdr.lastSent
  data_eq : u.data = Channel.window (dataPacket content) u.rcvr.lastRcvd u.sdr.lastSent
  acks_eq : u.acks = Channel.window ackPacket (u.acked + 1) (u.rcvr.lastRcvd + 1)
  sent_eq : u.sent = Channel.window (fun n ↦ n) 1 (u.sdr.lastSent + 1)
  buffer_eq : u.receiving.chunk.bytes =
    Bytes.blend (u.rcvr.lastRcvd * dataSize) content.bytes buffer.bytes

variable {content buffer : ChunkData} {u u' : Upload F}

theorem lossless_init [WindowArith F] (pRcvr pSdr : PeerRef) (chunk : ChunkRef)
    (content buffer : ChunkData) :
    (init pRcvr pSdr chunk content buffer : Upload F).Lossless content buffer where
  ranges := Sender.ranges_newSender (by rw [chunk2pkts_snd]; decide)
  pkts_eq := rfl
  num_eq := chunk2pkts_snd content
  window := Sender.open_newSender ..
  running h := by cases h
  created _ := rfl
  receiving := Receiving.ok_init pSdr chunk buffer
  acked_le := Nat.le_refl 0
  rcvd_le := Nat.le_refl 0
  data_eq := (Channel.window_self _ 0).symm
  acks_eq := (Channel.window_self _ 1).symm
  sent_eq := (Channel.window_self _ 1).symm
  buffer_eq := by
    show buffer.bytes = Bytes.blend (0 * dataSize) _ _
    rw [Nat.zero_mul, Bytes.blend_zero]

section Pooled

variable (h : u.Lossless content buffer)

include h

theorem Lossless.sent_le : u.sdr.lastSent ≤ dataPktNum := h.num_eq ▸ h.ranges.sent_le

theorem Lossless.acked_lt : u.sdr.lastAcked < dataPktNum := h.num_eq ▸ h.ranges.acked_lt

theorem Lossless.rcvd_le_num : u.rcvr.lastRcvd ≤ dataPktNum := h.rcvd_le.trans h.sent_le

/-- An acknowledgment is on the way only to a sender that is in the pool. -/
theorem Lossless.pooled_of_lt (hlt : u.acked < u.rcvr.lastRcvd) :
    u.sending.pooled = true ∧ u.acked = u.sdr.lastAcked := by
  by_cases hpooled : u.sending.pooled = true
  · exact ⟨hpooled, if_pos hpooled⟩
  · rw [acked, if_neg hpooled] at hlt
    exact absurd h.rcvd_le_num (Nat.not_le_of_lt hlt)

end Pooled

/-! ## What each step does -/

/-- The kinds of steps: the thread starts, an iteration finds no room or sends the next
packet, the receiver stores the packet it waits for, and the next acknowledgment moves the
window on or is the last one. -/
inductive FifoChange (content : ChunkData) (u : Upload F) : FifoEvent → Upload F → Prop
  | begins : u.sending.phase = .created →
      FifoChange content u .begin { u with sending := u.sending.beginThread }
  | idles : ¬ u.sending.CanSend → FifoChange content u .iterate u
  | sends {s} : u.sending.CanSend → u.sending.phase = .looping →
      u.sending.step .iterate = some s → s.phase = .looping → s.pooled = u.sending.pooled →
      s.sdr.lastSent = u.sdr.lastSent + 1 → s.sdr.lastAcked = u.sdr.lastAcked →
      s.sdr.Open →
      FifoChange content u .iterate
        { u with
          sending := s
          data := dataPacket content u.sdr.lastSent :: u.data
          sent := (u.sdr.lastSent + 1) :: u.sent }
  | stores {chunk data} : u.rcvr.lastRcvd < u.sdr.lastSent →
      data = Channel.window (dataPacket content) (u.rcvr.lastRcvd + 1) u.sdr.lastSent →
      (∀ old : List UInt8, old.length = btChunkSize →
        u.receiving.chunk.bytes = Bytes.blend (u.rcvr.lastRcvd * dataSize) content.bytes old →
        chunk.bytes = Bytes.blend ((u.rcvr.lastRcvd + 1) * dataSize) content.bytes old) →
      FifoChange content u .data
        { u with
          receiving := u.receiving.next chunk
          data := data
          acks := ackPacket (u.rcvr.lastRcvd + 1) :: u.acks }
  | advances {acks} : u.acked < u.rcvr.lastRcvd → u.sdr.lastAcked + 1 < dataPktNum →
      acks = Channel.window ackPacket (u.acked + 2) (u.rcvr.lastRcvd + 1) →
      FifoChange content u .ack
        { u with
          sending := { u.sending with sdr := (u.sdr.advance (u.sdr.lastAcked + 1)).stopTimer }
          acks := acks }
  | ends {acks} : u.acked < u.rcvr.lastRcvd → u.sdr.lastAcked + 1 = dataPktNum →
      acks = Channel.window ackPacket (u.acked + 2) (u.rcvr.lastRcvd + 1) →
      FifoChange content u .ack
        { u with
          sending := { u.sending with sdr := u.sdr.stopTimer, pooled := false }
          acks := acks }

/-- A sender that has room sends the next packet. -/
theorem Lossless.sends (h : u.Lossless content buffer) (hcan : u.sending.CanSend)
    (hphase : u.sending.phase = .looping) :
    ∃ u', u.fifoStep .iterate = some u' ∧ u.FifoChange content .iterate u' := by
  have hacked := h.ranges.acked_lt
  have hpkts : u.sending.iterate.2 = [dataPacket content u.sdr.lastSent] := by
    rw [Sending.packets_of_canSend hcan, show u.sending.sdr.pkts = _ from h.pkts_eq,
      getElem?_chunk2pkts (hcan.2.trans_eq h.num_eq)]
    rfl
  have hnum : (dataPacket content u.sdr.lastSent).header.seqNum.toNat = u.sdr.lastSent + 1 :=
    seqNum_dataPacket (hcan.2.trans_eq h.num_eq)
  have hstep := step_iterate hphase
  rw [hpkts, List.map_singleton, hnum] at hstep
  refine ⟨_, hstep, ?_⟩
  have hiter : u.sending.step .iterate = some u.sending.iterate.1 := if_pos hphase
  by_cases hfirst : u.sdr.lastSent = u.sdr.lastAcked
  · rw [Sending.iterate_first hcan hfirst hacked] at hiter ⊢
    exact .sends hcan hphase hiter hphase rfl rfl rfl ⟨h.window.one_le, h.window.le, h.window.acked_lt⟩
  · rw [Sending.iterate_next hcan hfirst hacked] at hiter ⊢
    exact .sends hcan hphase hiter hphase rfl rfl rfl ⟨h.window.one_le, h.window.le, h.window.acked_lt⟩

/-- Otherwise its loop goes round without an effect. -/
theorem Lossless.idles (h : u.Lossless content buffer) (hcan : ¬ u.sending.CanSend)
    (hphase : u.sending.phase = .looping) : u.fifoStep .iterate = some u := by
  have hdone : ¬ u.sending.Done := Nat.not_le_of_lt h.ranges.acked_lt
  have hiter : u.sending.iterate = (u.sending, []) := by
    simp only [Sending.iterate, SenderThread.iterate, SenderThread.trySend_of_not_canSend _ hcan,
      if_neg hdone]
  have hstep := step_iterate hphase
  rw [hiter] at hstep
  exact hstep

/-- The oldest DATA packet is the one the receiver waits for. -/
theorem Lossless.stores (h : u.Lossless content buffer) (hlt : u.rcvr.lastRcvd < u.sdr.lastSent) :
    ∃ u', u.fifoStep .data = some u' ∧ u.FifoChange content .data u' := by
  obtain ⟨chunk, hproc, hblend⟩ := Receiving.processDATA_expected content h.receiving
    (hlt.trans_le h.sent_le)
  have hreceive := Channel.receive_window (dataPacket content) hlt
  rw [← h.data_eq] at hreceive
  exact ⟨_, fifoStep_data hreceive hproc, .stores hlt rfl hblend⟩

/-- The oldest ACK packet acknowledges one packet more than the last one. -/
theorem Lossless.receive_ack (h : u.Lossless content buffer) (hlt : u.acked < u.rcvr.lastRcvd) :
    ∃ p, Channel.receive u.acks =
        some (p, Channel.window ackPacket (u.acked + 2) (u.rcvr.lastRcvd + 1)) ∧
      p.header.ackNum.toNat = u.sdr.lastAcked + 1 := by
  have hreceive := Channel.receive_window ackPacket (Nat.succ_lt_succ hlt)
  rw [← h.acks_eq] at hreceive
  refine ⟨_, hreceive, ?_⟩
  rw [← (h.pooled_of_lt hlt).2]
  exact ackNum_toNat_makeACK (hlt.trans_le h.rcvd_le_num)

/-- It moves the window on, or it is the last one. -/
theorem Lossless.acks (h : u.Lossless content buffer) (hlt : u.acked < u.rcvr.lastRcvd) :
    ∃ u', u.fifoStep .ack = some u' ∧ u.FifoChange content .ack u' := by
  obtain ⟨p, hreceive, hnum⟩ := h.receive_ack hlt
  have hpooled := (h.pooled_of_lt hlt).1
  rcases Nat.lt_or_eq_of_le (Nat.succ_le_of_lt h.acked_lt) with hnext | hlast
  · refine ⟨_, ?_, .advances hlt hnext rfl⟩
    have hnew := Sending.processACK_new (s := u.sending) hpooled (hnext.trans_eq h.num_eq.symm)
      (Nat.lt_succ_self _)
    rw [fifoStep_ack hreceive, hnum, hnew]
  · refine ⟨_, ?_, .ends hlt hlast rfl⟩
    have hacked := (h.pooled_of_lt hlt).2
    have hend : u.sending.processACK (u.sdr.lastAcked + 1) =
        { u.sending with sdr := u.sdr.stopTimer, pooled := false } := by
      have hfinal : u.sending.sdr.pktNum ≤ u.sdr.lastAcked + 1 := (h.num_eq.trans hlast.symm).le
      have hsent : ¬ u.sending.sdr.lastSent < u.sending.sdr.pktNum := by
        refine Nat.not_lt_of_le ((h.num_eq.trans hlast.symm).le.trans ?_)
        rw [← hacked]
        exact (Nat.succ_le_of_lt hlt).trans h.rcvd_le
      rw [Sending.processACK, if_pos hpooled, Sender.processACK, if_pos hfinal, if_neg hsent]
      rfl
    rw [fifoStep_ack hreceive, hnum, hend]

/-- Every step is of one of these kinds. -/
theorem Lossless.change (h : u.Lossless content buffer) {e : FifoEvent}
    (hstep : u.fifoStep e = some u') : u.FifoChange content e u' := by
  cases e with
  | begin =>
      obtain ⟨s, hs, rfl⟩ := Option.map_eq_some_iff.mp hstep
      rw [Sending.step, Option.ite_none_right_eq_some, Option.some.injEq] at hs
      obtain ⟨hphase, rfl⟩ := hs
      exact .begins hphase
  | iterate =>
      have hphase : u.sending.phase = .looping := by
        obtain ⟨s, hs, -⟩ := Option.map_eq_some_iff.mp hstep
        exact (Option.ite_none_right_eq_some.mp hs).1
      by_cases hcan : u.sending.CanSend
      · obtain ⟨u₁, hstep₁, hchange⟩ := h.sends hcan hphase
        rw [hstep, Option.some.injEq] at hstep₁
        exact hstep₁ ▸ hchange
      · rw [h.idles hcan hphase, Option.some.injEq] at hstep
        exact hstep ▸ .idles hcan
  | data =>
      rcases Nat.lt_or_eq_of_le h.rcvd_le with hlt | heq
      · obtain ⟨u₁, hstep₁, hchange⟩ := h.stores hlt
        rw [hstep, Option.some.injEq] at hstep₁
        exact hstep₁ ▸ hchange
      · rw [fifoStep, h.data_eq, heq, Channel.window_self] at hstep
        cases hstep
  | ack =>
      rcases Nat.lt_or_eq_of_le h.acked_le with hlt | heq
      · obtain ⟨u₁, hstep₁, hchange⟩ := h.acks hlt
        rw [hstep, Option.some.injEq] at hstep₁
        exact hstep₁ ▸ hchange
      · rw [fifoStep, h.acks_eq, heq, Channel.window_self] at hstep
        cases hstep

/-- What the sender knows to have arrived grows by one with every acknowledgment. -/
theorem Lossless.acked_change (h : u.Lossless content buffer) {e : FifoEvent}
    (hchange : u.FifoChange content e u') : u'.acked = u.acked + if e = .ack then 1 else 0 := by
  cases hchange with
  | begins | idles | stores => rfl
  | @sends s _ _ _ _ hpooled _ hacked =>
      show (if s.pooled = true then s.sdr.lastAcked else dataPktNum) = _
      rw [hpooled, hacked]
      rfl
  | advances hlt =>
      obtain ⟨hpooled, hacked⟩ := h.pooled_of_lt hlt
      rw [acked, if_pos hpooled, hacked]
      rfl
  | ends hlt hlast =>
      rw [acked, if_neg Bool.false_ne_true, (h.pooled_of_lt hlt).2, ← hlast]
      rfl

/-- The channels stay as they should. -/
theorem Lossless.step [WindowArith F] (h : u.Lossless content buffer) {e : FifoEvent}
    (hstep : u.fifoStep e = some u') : u'.Lossless content buffer := by
  have hr := h.ranges
  have hw := h.window
  have hchange := h.change hstep
  have hacked := h.acked_change hchange
  cases hchange with
  | begins hphase =>
      have hbegin : u.sending.step .begin = some u.sending.beginThread := if_pos hphase
      exact ⟨Sending.ranges_step hr hbegin, h.pkts_eq, h.num_eq, ⟨hw.one_le, hw.le, hw.acked_lt⟩,
        Phase.noConfusion, Phase.noConfusion, h.receiving, h.acked_le, h.rcvd_le, h.data_eq, h.acks_eq,
        h.sent_eq, h.buffer_eq⟩
  | idles => exact h
  | @sends s _ _ hs hphase _ hsent _ hopen =>
      obtain ⟨hpkts, hnum, -⟩ := Sending.step_frame hs
      refine ⟨Sending.ranges_step hr hs, hpkts.trans h.pkts_eq, hnum.trans h.num_eq, hopen, ?_, ?_,
        h.receiving, hacked.trans_le h.acked_le, ?_, ?_, ?_, ?_, h.buffer_eq⟩
      · simp [hphase]
      · simp [hphase]
      · exact h.rcvd_le.trans ((Nat.le_succ _).trans_eq hsent.symm)
      · show _ :: u.data = Channel.window _ _ s.sdr.lastSent
        rw [h.data_eq, hsent, Channel.cons_window _ h.rcvd_le]
      · rw [hacked]
        exact h.acks_eq
      · show _ :: u.sent = Channel.window _ _ (s.sdr.lastSent + 1)
        rw [h.sent_eq, hsent, ← Channel.cons_window _ (Nat.le_add_left 1 _)]
  | stores hlt hdata hblend =>
      refine ⟨hr, h.pkts_eq, h.num_eq, hw, h.running, h.created,
        Receiving.ok_next (hlt.trans_le h.sent_le), Nat.le_succ_of_le h.acked_le, hlt, hdata, ?_,
        h.sent_eq, hblend _ buffer.size_eq h.buffer_eq⟩
      show ackPacket _ :: u.acks = Channel.window _ (u.acked + 1) (u.rcvr.lastRcvd + 2)
      rw [h.acks_eq, Channel.cons_window _ (Nat.succ_le_succ h.acked_le)]
  | advances hlt hnext hacks =>
      have hopen := hw.advance (hnext.trans (by rw [dataPktNum]; norm_num))
      refine ⟨⟨hnext.trans_eq h.num_eq.symm, Nat.le_succ_of_le hr.timer_le, hr.sent_le⟩, h.pkts_eq,
        h.num_eq, ⟨hopen.one_le, hopen.le, hopen.acked_lt⟩, h.running, h.created, h.receiving,
        hacked.trans_le hlt, h.rcvd_le, h.data_eq, ?_, h.sent_eq, h.buffer_eq⟩
      rw [hacked]
      exact hacks
  | ends hlt hlast hacks =>
      refine ⟨⟨hr.acked_lt, hr.timer_le, hr.sent_le⟩, h.pkts_eq, h.num_eq,
        ⟨hw.one_le, hw.le, hw.acked_lt⟩, h.running, h.created, h.receiving, hacked.trans_le hlt,
        h.rcvd_le, h.data_eq, ?_, h.sent_eq, h.buffer_eq⟩
      rw [hacked]
      exact hacks

theorem lossless_of_run [WindowArith F] {pRcvr pSdr : PeerRef} {chunk : ChunkRef}
    {es : List FifoEvent}
    (hrun : Machine.run fifoStep (init pRcvr pSdr chunk content buffer) es = some u) :
    u.Lossless content buffer :=
  Machine.invariant (fun _ _ _ h hstep ↦ h.step hstep) hrun
    (lossless_init pRcvr pSdr chunk content buffer)

/-! ## No retransmission -/

/-- An acknowledgment on its way is never a duplicate. -/
theorem Lossless.not_retransmits (h : u.Lossless content buffer) (e : FifoEvent) :
    ¬ u.Retransmits e := by
  cases e with
  | begin | iterate | data => exact id
  | ack =>
      rintro ⟨p, acks, hreceive, -, -, hdup, -⟩
      rcases Nat.lt_or_eq_of_le h.acked_le with hlt | heq
      · obtain ⟨q, hreceive', hnum⟩ := h.receive_ack hlt
        rw [hreceive, Option.some.injEq, Prod.mk.injEq] at hreceive'
        rw [← hreceive'.1, hdup] at hnum
        exact Nat.succ_ne_self _ hnum.symm
      · rw [h.acks_eq, heq, Channel.window_self] at hreceive
        cases hreceive

/-! ## Termination -/

/-- How far the upload has come: the start of the thread, the packets sent, those stored and
those acknowledged. -/
def progress (u : Upload F) : Nat :=
  (if u.sending.phase = .created then 0 else 1) + u.sdr.lastSent + u.rcvr.lastRcvd + u.acked

/-- Every step but an idle one brings it one further. -/
theorem Lossless.progress_step (h : u.Lossless content buffer) {e : FifoEvent}
    (hstep : u.fifoStep e = some u') :
    u'.progress = u.progress + if ¬ u.Idle e then 1 else 0 := by
  have hchange := h.change hstep
  have hacked := h.acked_change hchange
  have hbusy : ∀ e, e ≠ .iterate → ¬ u.Idle e := fun e he hc ↦ he hc.1
  cases hchange with
  | begins hphase =>
      have hacked : _ = u.acked := hacked
      rw [if_pos (hbusy _ FifoEvent.noConfusion), progress, progress, hacked, if_pos hphase]
      show 1 + u.sdr.lastSent + u.rcvr.lastRcvd + u.acked = _
      omega
  | idles hcan => rw [if_neg (not_not_intro ⟨rfl, hcan⟩), Nat.add_zero]
  | @sends s hcan hphase _ hphase' _ hsent =>
      have hacked : _ = u.acked := hacked
      rw [if_pos fun hc ↦ hc.2 hcan, progress, progress, hacked, if_neg (by simp [hphase'])]
      rw [if_neg (by simp [hphase])]
      show 1 + s.sdr.lastSent + u.rcvr.lastRcvd + u.acked = _
      omega
  | stores =>
      have hacked : _ = u.acked := hacked
      rw [if_pos (hbusy _ FifoEvent.noConfusion), progress, progress, hacked]
      show (if u.sending.phase = .created then 0 else 1) + u.sdr.lastSent + (u.rcvr.lastRcvd + 1) +
        u.acked = _
      omega
  | advances | ends =>
      rw [if_pos (hbusy _ FifoEvent.noConfusion), progress, progress, hacked]
      rfl

theorem Lossless.progress_le (h : u.Lossless content buffer) : u.progress ≤ 3 * dataPktNum + 1 := by
  have hacked := h.acked_le
  have hrcvd := h.rcvd_le
  have hsent := h.sent_le
  rw [progress]
  split <;> omega

/-! ## The end -/

/-- The upload is over: the receiver has the chunk, and the sender has left its pool. -/
def Delivered (content : ChunkData) (u : Upload F) : Prop :=
  u.receiving.chunk = content ∧ u.sending.pooled = false

/-- Once the sender has left the pool everything was sent, stored and acknowledged. -/
theorem Lossless.all_of_removed (h : u.Lossless content buffer) (hout : u.sending.pooled = false) :
    u.acked = dataPktNum ∧ u.rcvr.lastRcvd = dataPktNum ∧ u.sdr.lastSent = dataPktNum := by
  have hacked : u.acked = dataPktNum := by
    rw [acked, hout]
    exact if_neg Bool.false_ne_true
  have hrcvd : dataPktNum ≤ u.rcvr.lastRcvd := hacked.symm.trans_le h.acked_le
  exact ⟨hacked, Nat.le_antisymm h.rcvd_le_num hrcvd,
    Nat.le_antisymm h.sent_le (hrcvd.trans h.rcvd_le)⟩

/-- The whole chunk is what the receiver holds once it has every packet. -/
theorem Lossless.chunk_eq (h : u.Lossless content buffer) (hrcvd : u.rcvr.lastRcvd = dataPktNum) :
    u.receiving.chunk = content := by
  ext1
  rw [h.buffer_eq, hrcvd]
  have hsize : btChunkSize ≤ dataPktNum * dataSize := by decide
  exact Bytes.blend_of_length_le (content.size_eq.trans_le hsize) (buffer.size_eq.trans_le hsize)

/-- No step but an idle one is left exactly when the upload is over. -/
theorem Lossless.stuck_iff (h : u.Lossless content buffer) :
    (∀ e u', u.fifoStep e = some u' → u.Idle e) ↔ u.Delivered content := by
  constructor
  · intro hstuck
    have hphase : u.sending.phase = .looping := by
      cases hphase : u.sending.phase with
      | created => exact absurd (hstuck .begin _ (step_begin hphase)).1 FifoEvent.noConfusion
      | looping => rfl
      | returned => exact absurd hphase h.running
    have hrcvd : u.rcvr.lastRcvd = u.sdr.lastSent := by
      refine (Nat.lt_or_eq_of_le h.rcvd_le).resolve_left fun hlt ↦ ?_
      obtain ⟨u', hstep, -⟩ := h.stores hlt
      exact absurd (hstuck .data u' hstep).1 FifoEvent.noConfusion
    have hacked : u.acked = u.rcvr.lastRcvd := by
      refine (Nat.lt_or_eq_of_le h.acked_le).resolve_left fun hlt ↦ ?_
      obtain ⟨u', hstep, -⟩ := h.acks hlt
      exact absurd (hstuck .ack u' hstep).1 FifoEvent.noConfusion
    -- with nothing in flight a sender in the pool has room for its next packet
    have hout : u.sending.pooled = false := by
      rw [← Bool.not_eq_true]
      intro hpooled
      rw [acked, if_pos hpooled] at hacked
      have hsame : u.sdr.lastSent = u.sdr.lastAcked := (hacked.trans hrcvd).symm
      have hcan : u.sending.CanSend :=
        ⟨hsame.trans_lt h.window.acked_lt, hsame.trans_lt h.ranges.acked_lt⟩
      obtain ⟨u', hstep, -⟩ := h.sends hcan hphase
      exact (hstuck .iterate u' hstep).2 hcan
    exact ⟨h.chunk_eq (h.all_of_removed hout).2.1, hout⟩
  · rintro ⟨-, hout⟩ e u' hstep
    obtain ⟨hacked, hrcvd, hsent⟩ := h.all_of_removed hout
    cases h.change hstep with
    | begins hphase =>
        rw [h.created hphase] at hsent
        cases hsent
    | idles hcan => exact ⟨rfl, hcan⟩
    | sends hcan => exact absurd (hsent.trans h.num_eq.symm) (Nat.ne_of_lt hcan.2)
    | stores hlt => exact absurd (hrcvd.trans hsent.symm) (Nat.ne_of_lt hlt)
    | advances hlt | ends hlt => exact absurd (hacked.trans hrcvd.symm) (Nat.ne_of_lt hlt)

/-- From every state on there is a run to the end. -/
theorem Lossless.exists_delivered [WindowArith F] (h : u.Lossless content buffer) :
    ∃ es u', Machine.run fifoStep u es = some u' ∧ u'.Delivered content := by
  -- induction on the number of steps that are left
  generalize hleft : 3 * dataPktNum + 1 - u.progress = left
  induction left using Nat.strong_induction_on generalizing u with
  | h left ih =>
      by_cases hdone : u.Delivered content
      · exact ⟨[], u, Machine.run_nil, hdone⟩
      · rw [← h.stuck_iff] at hdone
        push Not at hdone
        obtain ⟨e, u₁, hstep, hbusy⟩ := hdone
        have hprogress := h.progress_step hstep
        rw [if_pos hbusy] at hprogress
        have hle := (h.step hstep).progress_le
        obtain ⟨es, u', hrun, hend⟩ := ih _ (by omega) (h.step hstep) rfl
        exact ⟨e :: es, u', Machine.run_cons_eq_some.mpr ⟨u₁, hstep, hrun⟩, hend⟩

/-- One upload over a network that neither loses nor reorders packets, without timeouts, and
with its steps in any order: `retransmit` is never called, the packets sent are 1, 2, 3 and so
on, each once, and an iteration that finds no room leaves the upload as it is.  No run takes
more than three steps for each packet and one besides, not counting such iterations; none but
these are left exactly when the receiver has the whole chunk and the sender has left the pool,
and then every packet was sent. -/
theorem lossless_delivers [WindowArith F] {pRcvr pSdr : PeerRef} {chunk : ChunkRef}
    {es : List FifoEvent}
    (hrun : Machine.run fifoStep (init pRcvr pSdr chunk content buffer) es = some u) :
    Machine.Along fifoStep (fun u e ↦ ¬ u.Retransmits e)
      (init pRcvr pSdr chunk content buffer : Upload F) es ∧
    u.sent.reverse = List.range' 1 u.sdr.lastSent ∧
    (∀ e u', u.Idle e → u.fifoStep e = some u' → u' = u) ∧
    Machine.stepsMeeting fifoStep (fun u e ↦ ¬ u.Idle e)
      (init pRcvr pSdr chunk content buffer : Upload F) es ≤ 3 * u.sdr.pktNum + 1 ∧
    ((∀ e u', u.fifoStep e = some u' → u.Idle e) ↔ u.Delivered content) ∧
    (u.Delivered content → u.sent.reverse = List.range' 1 u.sdr.pktNum) := by
  have h := lossless_of_run hrun
  have hsent : u.sent.reverse = List.range' 1 u.sdr.lastSent := by
    rw [h.sent_eq, Channel.reverse_window, List.map_id', Nat.add_sub_cancel]
  refine ⟨?_, hsent, ?_, ?_, h.stuck_iff, ?_⟩
  · exact Machine.along_of_invariant (I := Lossless content buffer)
      (fun _ _ _ h hstep ↦ h.step hstep) (fun _ e h ↦ h.not_retransmits e)
      (lossless_init pRcvr pSdr chunk content buffer)
  · rintro e u' ⟨rfl, hcan⟩ hstep
    cases h.change hstep with
    | idles => rfl
    | sends hcan' => exact absurd hcan' hcan
  · have hsteps := Machine.stepsMeeting_add (p := fun u e ↦ ¬ u.Idle e) (I := Lossless content buffer)
      (fun _ _ _ h hstep ↦ h.step hstep) (fun _ _ _ h hstep ↦ h.progress_step hstep) hrun
      (lossless_init pRcvr pSdr chunk content buffer)
    rw [h.num_eq]
    exact (Nat.le_add_right _ _).trans (hsteps.trans_le h.progress_le)
  · rintro ⟨-, hout⟩
    rw [hsent, (h.all_of_removed hout).2.2, h.num_eq]

/-- With exact rationals for `cwnd`, a chunk of zeros over a buffer of ones, up to the end. -/
theorem lossless_delivers_zeros : ∃ (es : List FifoEvent) (u : Upload ℚ),
    Machine.run fifoStep (init 0 1 0 (.fill 0) (.fill 1)) es = some u ∧ u.Delivered (.fill 0) ∧
      u.sent.reverse = List.range' 1 u.sdr.pktNum ∧
      Machine.Along fifoStep (fun u e ↦ ¬ u.Retransmits e)
        (init 0 1 0 (.fill 0) (.fill 1) : Upload ℚ) es := by
  have hstart := lossless_init (F := ℚ) 0 1 0 (.fill 0) (.fill 1)
  obtain ⟨es, u, hrun, hend⟩ := hstart.exists_delivered
  obtain ⟨halong, -, -, -, -, hsent⟩ := lossless_delivers hrun
  exact ⟨es, u, hrun, hend, hsent hend, halong⟩

end Upload

end BitTorrent
