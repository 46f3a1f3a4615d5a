import Mathlib.Order.Interval.Finset.Nat
import BitTorrent.Upload.Timeout

/-!
# Packets in flight

`last_sent - last_acked` is meant to be the number of packets sent and not yet
acknowledged.  Both ways of going back set the two counters to the same number, while
acknowledgments of packets sent before are still on the way; `process_ACK` takes such an
acknowledgment without a look at `last_sent`.  This is the only way `last_acked` gets
ahead of `last_sent`.
-/

namespace BitTorrent

set_option linter.unusedSectionVars false

variable {F : Type} [NatCast F] [Add F] [Div F] [LE F] [DecidableLE F] [TruncU32 F]

/-- `last_sent - last_acked`, as the source computes it. -/
def Sender.outstanding (sdr : Sender F) : UInt32 :=
  UInt32.ofNat sdr.lastSent - UInt32.ofNat sdr.lastAcked

/-- The difference of two counters does not wrap around. -/
theorem Sender.outstanding_toNat {sdr : Sender F} (hr : sdr.Ranges) (hnum : sdr.pktNum = dataPktNum)
    (h : sdr.lastAcked ≤ sdr.lastSent) :
    sdr.outstanding.toNat = sdr.lastSent - sdr.lastAcked := by
  have hsent : sdr.lastSent < 2 ^ 32 := by
    refine (hr.sent_le.trans_eq hnum).trans_lt ?_
    rw [dataPktNum]
    norm_num
  have hle : UInt32.ofNat sdr.lastAcked ≤ UInt32.ofNat sdr.lastSent := by
    rw [UInt32.le_iff_toNat_le, UInt32.toNat_ofNat_of_lt' hsent,
      UInt32.toNat_ofNat_of_lt' (h.trans_lt hsent)]
    exact h
  rw [outstanding, UInt32.toNat_sub_of_le _ _ hle, UInt32.toNat_ofNat_of_lt' hsent,
    UInt32.toNat_ofNat_of_lt' (h.trans_lt hsent)]

namespace Upload

/-- Nothing is acknowledged that does not count as sent, and `last_sent - last_acked` is the
number of packets between the two. -/
structure CountsInFlight (u : Upload F) : Prop where
  acked_le_sent : u.sdr.lastAcked ≤ u.sdr.lastSent
  exact_count : u.sdr.outstanding.toNat = (Finset.Ioc u.sdr.lastAcked u.sdr.lastSent).card

/-- The acknowledgment that moves the window on is one of a packet that counts as sent. -/
def AcksSent (u : Upload F) (e : Event) : Prop :=
  ∀ p, e = .deliverAck p → u.sending.pooled = true → p.header.ackNum.toNat < u.sdr.pktNum →
    p.header.ackNum.toNat ≤ u.sdr.lastSent

variable {content : ChunkData} {u u' : Upload F} {e : Event}

theorem countsInFlight_of_le (h : u.Safe content) (hle : u.sdr.lastAcked ≤ u.sdr.lastSent) :
    u.CountsInFlight := by
  refine ⟨hle, ?_⟩
  rw [Nat.card_Ioc]
  exact Sender.outstanding_toNat h.ranges h.num_eq hle

/-- A step of the sender keeps `last_acked` behind `last_sent`, if it takes no
acknowledgment from beyond. -/
theorem acked_le_sent_sending {s s' : Sending F} {e : SendEvent} (hle : s.sdr.lastAcked ≤ s.sdr.lastSent)
    (hack : ∀ n, e = .ack n → s.pooled = true → n < s.sdr.pktNum → n ≤ s.sdr.lastSent)
    (h : s.step e = some s') : s'.sdr.lastAcked ≤ s'.sdr.lastSent := by
  cases Sending.step_cases h with
  | begun | idle | void | absent | ended => exact hle
  | first | next => exact Nat.le_succ_of_le hle
  | rewound => exact Nat.le_refl _
  | @kept n _ hpooled hkept =>
      cases hkept with
      | ignored hsame =>
          rw [hsame.lastAcked, hsame.lastSent]
          exact hle
      | advanced hn _ hsame =>
          rw [hsame.lastAcked, hsame.lastSent]
          exact hack n rfl hpooled hn
      | retransmitted _ _ hsame =>
          rw [hsame.lastAcked, hsame.lastSent]
          exact Nat.le_refl n

/-- The condition keeps `last_acked` behind `last_sent`. -/
theorem acked_le_sent_step (hle : u.sdr.lastAcked ≤ u.sdr.lastSent) (hok : u.AcksSent e)
    (h : u.step e = some u') : u'.sdr.lastAcked ≤ u'.sdr.lastSent := by
  cases step_cases h with
  | begins hs | sends hs | expires hs =>
      refine acked_le_sent_sending hle ?_ hs
      rintro n ⟨⟩
  | acked _ hs =>
      refine acked_le_sent_sending hle ?_ hs
      rintro n ⟨⟩
      exact hok _ rfl
  | arrives | network => exact hle

/-- A step that leaves `last_acked` behind `last_sent` meets the condition. -/
theorem acksSent_of_step (hle : u.sdr.lastAcked ≤ u.sdr.lastSent) (h : u.step e = some u')
    (hle' : u'.sdr.lastAcked ≤ u'.sdr.lastSent) : u.AcksSent e := by
  rintro p rfl hpooled hn
  by_contra hbeyond
  have hnew : u.sdr.lastAcked < p.header.ackNum.toNat := hle.trans_lt (Nat.lt_of_not_le hbeyond)
  have hmem : p ∈ u.acks := by
    by_contra hout
    simp [step, hout] at h
  have hack := step_deliverAck hmem
  rw [Sending.processACK_new hpooled hn hnew, h, Option.some.injEq] at hack
  subst hack
  exact hbeyond hle'

/-- In every state a run passes through `last_acked` is at most `last_sent`, and their
difference is the number of packets in flight, exactly if no acknowledgment that moves the
window on is delivered while the sender has gone back behind the packet it acknowledges. -/
theorem counts_in_flight_iff {pRcvr pSdr : PeerRef} {chunk : ChunkRef} {content buffer : ChunkData}
    {es : List Event} (h : Machine.run step (init pRcvr pSdr chunk content buffer) es = some u) :
    (∀ fs, fs <+: es → ∀ v : Upload F,
        Machine.run step (init pRcvr pSdr chunk content buffer) fs = some v → v.CountsInFlight) ↔
      Machine.Along step AcksSent (init pRcvr pSdr chunk content buffer : Upload F) es := by
  refine Machine.along_iff_good
    (I := fun u : Upload F ↦ u.Safe content ∧ u.sdr.lastAcked ≤ u.sdr.lastSent) ?_ ?_ ?_ h
    ⟨safe_init pRcvr pSdr chunk content buffer, Nat.le_refl 0⟩
  · rintro s ⟨hsafe, hle⟩
    exact countsInFlight_of_le hsafe hle
  · rintro s e t ⟨hsafe, hle⟩ hstep hok
    exact ⟨hsafe.step hstep, acked_le_sent_step hle hok hstep⟩
  · rintro s e t ⟨-, hle⟩ hstep hgood
    exact acksSent_of_step hle hstep hgood.acked_le_sent

/-- The first packet is sent, stored and acknowledged. -/
theorem counts_in_flight_iff_first :
    (∀ fs, fs <+: firstAcked (.fill 0) → ∀ v : Upload ℚ,
        Machine.run step (init 0 1 0 (.fill 0) (.fill 0)) fs = some v → v.CountsInFlight) ↔
      Machine.Along step AcksSent (init 0 1 0 (.fill 0) (.fill 0) : Upload ℚ)
        (firstAcked (.fill 0)) := by
  obtain ⟨u, hrun, -⟩ := run_firstAcked (F := ℚ) 0 1 0 (.fill 0) (.fill 0)
  exact counts_in_flight_iff hrun

/-- The timeout of the first packet fires while its acknowledgment is on the way: then
packet 1 is acknowledged and none is sent. -/
theorem not_counts_in_flight_late :
    ¬ ∀ v : Upload ℚ, Machine.run step (init 0 1 0 (.fill 0) (.fill 0))
      (firstStored (.fill 0) ++ [.timeout 0, .deliverAck (makeACK 1)]) = some v →
        v.CountsInFlight := by
  intro h
  obtain ⟨u, hrun, hpooled, -, -, hnum, hid, hpending, hack⟩ :=
    run_firstStored (F := ℚ) 0 1 0 (.fill 0) (.fill 0)
  have hback : (u.sending.timeout 0).sdr = u.sdr.retransmit 0 := Sending.sdr_timeout hid
  have hnew := Sending.processACK_new (s := u.sending.timeout 0) (n := 1) hpooled
    (by rw [hback, Sender.pktNum_retransmit, hnum]; decide)
    (by rw [hback, Sender.lastAcked_retransmit]; exact Nat.zero_lt_one)
  have hdeliver := step_deliverAck (u := { u with sending := u.sending.timeout 0 }) hack
  have hgood := h _ (Machine.run_trans hrun (Machine.run_cons_eq_some.mpr
    ⟨_, step_timeout hpending, Machine.run_single hdeliver⟩))
  have hle : (Sending.processACK (u.sending.timeout 0) 1).sdr.lastAcked ≤
      (Sending.processACK (u.sending.timeout 0) 1).sdr.lastSent := hgood.acked_le_sent
  rw [hnew, hback] at hle
  exact absurd hle (Nat.not_succ_le_zero 0)

end Upload

end BitTorrent
