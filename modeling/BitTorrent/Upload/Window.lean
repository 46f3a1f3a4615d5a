import BitTorrent.Upload.Sender

/-!
# The congestion window

With exact rationals for `cwnd`, a sender's window never closes and its counters
stay inside it, whatever acknowledgments arrive and whenever timeouts fire.

The threshold never falls to zero because a window above it is at least two: a
window at or below it is a whole number, so slow start leaves it by one whole
step, and beyond it the window only grows or is set to the threshold plus three.
-/

namespace BitTorrent

namespace Sender

/-- The window of a sender and the counters around it. -/
structure WindowOk (sdr : Sender ℚ) : Prop where
  one_le_cwnd : 1 ≤ sdr.cwnd
  one_le_ssthresh : 1 ≤ sdr.ssthresh
  whole : sdr.cwnd ≤ sdr.ssthresh → ∃ k : ℕ, sdr.cwnd = k
  two_le : (sdr.ssthresh : ℚ) < sdr.cwnd → 2 ≤ sdr.cwnd
  acked_lt_available : sdr.lastAcked < sdr.lastAvailable
  available_le : (sdr.lastAvailable : ℚ) ≤ sdr.lastAcked + sdr.cwnd
  sent_le_available : sdr.lastSent ≤ sdr.lastAvailable
  fits : sdr.cwnd + (sdr.pktNum - sdr.lastAcked) ≤ 2 * (sdr.pktNum + 3)

theorem windowOk_newSender {pRcvr : Option PeerRef} {pkts : List Packet} {num : Nat} :
    (newSender pRcvr pkts num : Sender ℚ).WindowOk where
  one_le_cwnd := by simp [newSender, cwndDefault]
  one_le_ssthresh := by simp [newSender, ssthreshDefault]
  whole _ := ⟨1, rfl⟩
  two_le h := by
    simp only [newSender, ssthreshDefault, cwndDefault] at h
    norm_num at h
  acked_lt_available := Nat.one_pos
  available_le := by simp [newSender, cwndDefault]
  sent_le_available := Nat.zero_le _
  fits := by
    have h : (0 : ℚ) ≤ num := Nat.cast_nonneg num
    simp only [newSender, cwndDefault, Nat.cast_one, Nat.cast_zero]
    linarith

/-- The edge of a window of `c` packets after packet `a`. -/
theorem lt_truncU32_add {a : ℕ} {c : ℚ} (hc : 1 ≤ c) : a < truncU32 ((a : ℚ) + c) := by
  refine Nat.lt_of_succ_le (Nat.le_floor ?_)
  push_cast
  linarith

theorem truncU32_add_le {a : ℕ} {c : ℚ} (hc : 1 ≤ c) :
    ((truncU32 ((a : ℚ) + c) : ℕ) : ℚ) ≤ a + c :=
  Nat.floor_le (add_nonneg (Nat.cast_nonneg a) (zero_le_one.trans hc))

section Retransmit

variable {sdr : Sender ℚ}

theorem one_le_cwnd_retransmit (n : ℕ) : 1 ≤ (sdr.retransmit n).cwnd := by
  by_cases hslow : sdr.cwnd ≤ (sdr.ssthresh : ℚ)
  · simp [retransmit, hslow]
  · simp only [retransmit, hslow, if_false, dupAckMax]
    push_cast
    have hhalf : (0 : ℚ) ≤ (truncU32 (sdr.cwnd / ((2 : ℕ) : ℚ)) : ℕ) := Nat.cast_nonneg _
    linarith

/-- Going back in slow start: the threshold is the old window, the window is one. -/
theorem retransmit_of_slow (hslow : sdr.cwnd ≤ (sdr.ssthresh : ℚ)) (n : ℕ) :
    (sdr.retransmit n).cwnd = 1 ∧ (sdr.retransmit n).ssthresh = ⌊sdr.cwnd⌋₊ := by
  simp [retransmit, hslow, truncU32_rat]

/-- Going back beyond the threshold: the threshold is half the old window, the
window three packets more. -/
theorem retransmit_of_fast (hfast : ¬ sdr.cwnd ≤ (sdr.ssthresh : ℚ)) (n : ℕ) :
    (sdr.retransmit n).cwnd = ((sdr.retransmit n).ssthresh : ℚ) + 3 ∧
      (sdr.retransmit n).ssthresh = ⌊sdr.cwnd / 2⌋₊ := by
  simp [retransmit, hfast, truncU32_rat, dupAckMax]

/-- Going back to any packet leaves a good window. -/
theorem WindowOk.retransmit (h : sdr.WindowOk) (n : ℕ) (hn : sdr.lastAcked < sdr.pktNum) :
    (sdr.retransmit n).WindowOk := by
  have hone : 1 ≤ (sdr.retransmit n).cwnd := one_le_cwnd_retransmit n
  have hacked : (sdr.lastAcked : ℚ) + 1 ≤ sdr.pktNum := by exact_mod_cast hn
  have hfits := h.fits
  have hn0 : (0 : ℚ) ≤ n := Nat.cast_nonneg n
  have hedge : (sdr.retransmit n).lastAvailable = truncU32 ((n : ℚ) + (sdr.retransmit n).cwnd) := rfl
  refine ⟨hone, ?_, ?_, ?_, ?_, ?_, ?_, ?_⟩
  · by_cases hslow : sdr.cwnd ≤ (sdr.ssthresh : ℚ)
    · rw [(retransmit_of_slow hslow n).2]
      exact Nat.le_floor (by simpa using h.one_le_cwnd)
    · rw [(retransmit_of_fast hslow n).2]
      refine Nat.le_floor ?_
      have := h.two_le (lt_of_not_ge hslow)
      push_cast
      linarith
  · intro _
    by_cases hslow : sdr.cwnd ≤ (sdr.ssthresh : ℚ)
    · exact ⟨1, by rw [(retransmit_of_slow hslow n).1, Nat.cast_one]⟩
    · refine ⟨(sdr.retransmit n).ssthresh + 3, ?_⟩
      rw [(retransmit_of_fast hslow n).1]
      push_cast
      rfl
  · intro hgt
    by_cases hslow : sdr.cwnd ≤ (sdr.ssthresh : ℚ)
    · rw [(retransmit_of_slow hslow n).1, (retransmit_of_slow hslow n).2] at hgt
      have hfloor : (1 : ℚ) ≤ (⌊sdr.cwnd⌋₊ : ℕ) := by
        exact_mod_cast Nat.le_floor (by simpa using h.one_le_cwnd)
      exact absurd hgt (not_lt_of_ge hfloor)
    · rw [(retransmit_of_fast hslow n).1]
      have hth : (0 : ℚ) ≤ ((sdr.retransmit n).ssthresh : ℕ) := Nat.cast_nonneg _
      linarith
  · rw [hedge, lastAcked_retransmit]
    exact lt_truncU32_add hone
  · rw [hedge, lastAcked_retransmit]
    exact truncU32_add_le hone
  · rw [hedge, lastSent_retransmit]
    exact Nat.le_of_lt (lt_truncU32_add hone)
  · rw [lastAcked_retransmit, pktNum_retransmit]
    by_cases hslow : sdr.cwnd ≤ (sdr.ssthresh : ℚ)
    · rw [(retransmit_of_slow hslow n).1]
      linarith
    · have hhalf : ((⌊sdr.cwnd / 2⌋₊ : ℕ) : ℚ) ≤ sdr.cwnd / 2 :=
        Nat.floor_le (by linarith [h.one_le_cwnd])
      rw [(retransmit_of_fast hslow n).1, (retransmit_of_fast hslow n).2]
      linarith

end Retransmit

section Advance

variable {sdr : Sender ℚ} {n : ℕ}

/-- An ACK widens the window, by at most one packet. -/
theorem cwnd_advance (h : 1 ≤ sdr.cwnd) (n : ℕ) :
    sdr.cwnd < (sdr.advance n).cwnd ∧ (sdr.advance n).cwnd ≤ sdr.cwnd + 1 := by
  have hpos : (0 : ℚ) < sdr.cwnd := zero_lt_one.trans_le h
  by_cases hslow : sdr.cwnd ≤ (sdr.ssthresh : ℚ)
  · simp [advance, hslow]
  · have hdiv : (1 : ℚ) / sdr.cwnd ≤ 1 := (div_le_one hpos).mpr h
    have hdiv' : (0 : ℚ) < 1 / sdr.cwnd := div_pos zero_lt_one hpos
    simp only [advance, hslow, if_false, Nat.cast_one]
    exact ⟨by linarith, by linarith⟩

/-- An ACK that acknowledges something new leaves a good window. -/
theorem WindowOk.advance (h : sdr.WindowOk) (hn : sdr.lastAcked < n) : (sdr.advance n).WindowOk := by
  have hcwnd := cwnd_advance h.one_le_cwnd n
  have hnew : (sdr.lastAcked : ℚ) + 1 ≤ n := by exact_mod_cast hn
  have hedge : (sdr.advance n).lastAvailable = truncU32 ((n : ℚ) + sdr.cwnd) := rfl
  refine ⟨by linarith [h.one_le_cwnd], h.one_le_ssthresh, ?_, ?_, ?_, ?_, ?_, ?_⟩
  · intro hle
    have hold : sdr.cwnd ≤ (sdr.ssthresh : ℚ) := (hcwnd.1.trans_le hle).le
    obtain ⟨k, hk⟩ := h.whole hold
    have hval : (sdr.advance n).cwnd = sdr.cwnd + 1 := by simp [Sender.advance, hold]
    refine ⟨k + 1, ?_⟩
    rw [hval, hk]
    push_cast
    rfl
  · intro hgt
    by_cases hold : sdr.cwnd ≤ (sdr.ssthresh : ℚ)
    · have hval : (sdr.advance n).cwnd = sdr.cwnd + 1 := by simp [Sender.advance, hold]
      rw [hval]
      linarith [h.one_le_cwnd]
    · linarith [h.two_le (lt_of_not_ge hold)]
  · rw [hedge]
    exact lt_truncU32_add h.one_le_cwnd
  · rw [hedge, lastAcked_advance]
    linarith [truncU32_add_le (a := n) h.one_le_cwnd]
  · rw [hedge, lastSent_advance]
    refine h.sent_le_available.trans (Nat.le_floor ?_)
    linarith [h.available_le]
  · rw [lastAcked_advance, pktNum_advance]
    linarith [h.fits]

end Advance

theorem WindowOk.congr {sdr sdr' : Sender ℚ} (hs : sdr.Same sdr') (h : sdr.WindowOk) :
    sdr'.WindowOk := by
  obtain ⟨hth, hcw, hsent, hack, hav, hnum, -, -⟩ := hs
  refine ⟨?_, ?_, ?_, ?_, ?_, ?_, ?_, ?_⟩
  · rw [hcw]; exact h.one_le_cwnd
  · rw [hth]; exact h.one_le_ssthresh
  · rw [hcw, hth]; exact h.whole
  · rw [hcw, hth]; exact h.two_le
  · rw [hack, hav]; exact h.acked_lt_available
  · rw [hack, hav, hcw]; exact h.available_le
  · rw [hsent, hav]; exact h.sent_le_available
  · rw [hcw, hnum, hack]; exact h.fits

/-- For any number of packets a chunk can have the window stays small. -/
theorem WindowOk.edge_lt {sdr : Sender ℚ} (h : sdr.WindowOk) (hr : sdr.Ranges)
    (hnum : sdr.pktNum < 2 ^ 30) : (sdr.pktNum : ℚ) + sdr.cwnd < 2 ^ 32 := by
  have hacked : (sdr.lastAcked : ℚ) ≤ sdr.pktNum := by exact_mod_cast hr.acked_lt.le
  have hlt : (sdr.pktNum : ℚ) + 1 ≤ 2 ^ 30 := by exact_mod_cast hnum
  have hfits := h.fits
  norm_num at hlt ⊢
  linarith

end Sender

/-! ## Steps -/

namespace Sending

/-- The bounds and the window together survive every step. -/
theorem windowOk_step {s s' : Sending ℚ} {e : SendEvent} (hr : s.sdr.Ranges) (hw : s.sdr.WindowOk)
    (h : s.step e = some s') : s'.sdr.WindowOk := by
  have hboth : s'.sdr.WindowOk ∧ s'.sdr.lastAcked < s'.sdr.pktNum := by
    refine And.imp_right And.left (step_preserves (P := fun sdr ↦ sdr.WindowOk ∧
      sdr.lastAcked < sdr.pktNum ∧ sdr.timer.id < sdr.pktNum) ?_ ?_ ?_ ?_ ?_
      ⟨hw, hr.acked_lt, Nat.lt_of_le_of_lt hr.timer_le hr.acked_lt⟩ h)
    · intro sdr sdr' hs hP
      refine ⟨hP.1.congr hs, ?_, ?_⟩
      · rw [hs.lastAcked, hs.pktNum]
        exact hP.2.1
      · rw [hs.id, hs.pktNum]
        exact hP.2.2
    · intro sdr n hP hn hnew
      exact ⟨hP.1.advance hnew, hn, hP.2.2⟩
    · intro sdr n hP hn
      refine ⟨hP.1.retransmit n hP.2.1, ?_, hP.2.2⟩
      rcases hn with rfl | rfl
      · exact hP.2.1
      · exact hP.2.2
    · intro sdr hP
      obtain ⟨⟨h₁, h₂, h₃, h₄, h₅, h₆, h₇, h₈⟩, hlt, -⟩ := hP
      exact ⟨⟨h₁, h₂, h₃, h₄, h₅, h₆, h₇, h₈⟩, hlt, hlt⟩
    · intro sdr hP hav _
      obtain ⟨⟨h₁, h₂, h₃, h₄, h₅, h₆, -, h₈⟩, hlt⟩ := hP
      exact ⟨⟨h₁, h₂, h₃, h₄, h₅, h₆, hav, h₈⟩, hlt⟩
  exact hboth.1

/-- A window above its threshold stays above it. -/
theorem above_step {s s' : Sending ℚ} {e : SendEvent} (hw : s.sdr.WindowOk)
    (habove : (s.sdr.ssthresh : ℚ) < s.sdr.cwnd) (h : s.step e = some s') :
    (s'.sdr.ssthresh : ℚ) < s'.sdr.cwnd := by
  have hP : (s'.sdr.ssthresh : ℚ) < s'.sdr.cwnd ∧ 1 ≤ s'.sdr.cwnd := by
    refine step_preserves (P := fun sdr ↦ (sdr.ssthresh : ℚ) < sdr.cwnd ∧ 1 ≤ sdr.cwnd)
      ?_ ?_ ?_ ?_ ?_ ⟨habove, hw.one_le_cwnd⟩ h
    · intro sdr sdr' hs hP
      rw [hs.ssthresh, hs.cwnd]
      exact hP
    · intro sdr n hP _ _
      have hcwnd := Sender.cwnd_advance hP.2 n
      exact ⟨hP.1.trans hcwnd.1, hP.2.trans hcwnd.1.le⟩
    · intro sdr n hP _
      have hval := Sender.retransmit_of_fast (not_le_of_gt hP.1) n
      refine ⟨?_, Sender.one_le_cwnd_retransmit n⟩
      rw [hval.1]
      linarith
    · exact fun _ hP ↦ hP
    · exact fun _ hP _ _ ↦ hP
  exact hP.1

/-- The bounds and the window hold in every state a sender can reach. -/
theorem ok_of_reaches {pRcvr : Option PeerRef} {pkts : List Packet} (hpkts : pkts ≠ [])
    {s : Sending ℚ} (h : Machine.Reaches step (init pRcvr pkts pkts.length) s) :
    s.sdr.WindowOk ∧ s.sdr.Ranges ∧ s.sdr.pktNum = s.sdr.pkts.length := by
  refine h.invariant (P := fun s : Sending ℚ ↦
    s.sdr.WindowOk ∧ s.sdr.Ranges ∧ s.sdr.pktNum = s.sdr.pkts.length) ?_ ?_
  · rintro s e s' ⟨hw, hr, hlen⟩ hstep
    obtain ⟨hpkts', hnum', -⟩ := step_frame hstep
    refine ⟨windowOk_step hr hw hstep, ranges_step hr hstep, ?_⟩
    rw [hpkts', hnum']
    exact hlen
  · exact ⟨Sender.windowOk_newSender, Sender.ranges_newSender (List.length_pos_iff.mpr hpkts), rfl⟩

/-- What the source converts to `uint32_t` when it moves the window, the number of a packet
plus `cwnd`, is in the range of that type. -/
theorem truncU32_lt_of_reaches {pRcvr : Option PeerRef} {pkts : List Packet} (hpkts : pkts ≠ [])
    (hnum : pkts.length < 2 ^ 30) {s : Sending ℚ}
    (h : Machine.Reaches step (init pRcvr pkts pkts.length) s) {n : ℕ} (hn : n ≤ s.sdr.pktNum) :
    0 ≤ (n : ℚ) + s.sdr.cwnd ∧ (n : ℚ) + s.sdr.cwnd < 2 ^ 32 := by
  obtain ⟨hw, hr, -⟩ := ok_of_reaches hpkts h
  have hkept : s.sdr.pktNum = pkts.length :=
    h.invariant (P := fun s : Sending ℚ ↦ s.sdr.pktNum = pkts.length)
      (fun _ _ _ hs hstep ↦ (step_frame hstep).2.1.trans hs) rfl
  have hle : (n : ℚ) ≤ s.sdr.pktNum := by exact_mod_cast hn
  have hnonneg : (0 : ℚ) ≤ n := Nat.cast_nonneg n
  have hedge := hw.edge_lt hr (hkept.trans_lt hnum)
  have hone := hw.one_le_cwnd
  exact ⟨by linarith, by linarith⟩

/-- The window of an upload stays open and its counters stay inside it, whatever
numbers the acknowledgments carry and whenever timeouts fire: at most `cwnd`
packets past `last_acked` are outstanding, the packet to send always exists, and
a window above its threshold never falls back to it. -/
theorem window_never_closes {pRcvr : Option PeerRef} {pkts : List Packet} (hpkts : pkts ≠ [])
    {s : Sending ℚ} (h : Machine.Reaches step (init pRcvr pkts pkts.length) s) :
    (1 ≤ s.sdr.cwnd ∧ 1 ≤ s.sdr.ssthresh ∧ s.sdr.lastAcked < s.sdr.pktNum ∧
      s.sdr.lastAcked < s.sdr.lastAvailable ∧
      (s.sdr.lastAvailable : ℚ) ≤ s.sdr.lastAcked + s.sdr.cwnd ∧
      s.sdr.lastSent ≤ s.sdr.lastAvailable ∧ s.sdr.lastSent ≤ s.sdr.pktNum) ∧
    (s.sdr.lastSent : ℚ) - s.sdr.lastAcked ≤ s.sdr.cwnd ∧
    (s.CanSend → s.sdr.lastSent < s.sdr.pkts.length) ∧
    ((s.sdr.ssthresh : ℚ) < s.sdr.cwnd →
      ∀ s', Machine.Reaches step s s' → (s'.sdr.ssthresh : ℚ) < s'.sdr.cwnd) := by
  obtain ⟨hw, hr, hlen⟩ := ok_of_reaches hpkts h
  refine ⟨⟨hw.one_le_cwnd, hw.one_le_ssthresh, hr.acked_lt, hw.acked_lt_available,
    hw.available_le, hw.sent_le_available, hr.sent_le⟩, ?_, ?_, ?_⟩
  · have hsent : (s.sdr.lastSent : ℚ) ≤ s.sdr.lastAvailable := by exact_mod_cast hw.sent_le_available
    linarith [hw.available_le]
  · intro hcan
    rw [← hlen]
    exact hcan.2
  · intro habove s' hs'
    have hinv : (s'.sdr.ssthresh : ℚ) < s'.sdr.cwnd ∧ s'.sdr.WindowOk ∧ s'.sdr.Ranges := by
      refine hs'.invariant (P := fun s : Sending ℚ ↦
        (s.sdr.ssthresh : ℚ) < s.sdr.cwnd ∧ s.sdr.WindowOk ∧ s.sdr.Ranges) ?_ ⟨habove, hw, hr⟩
      rintro s e s' ⟨habove, hw, hr⟩ hstep
      exact ⟨above_step hw habove hstep, windowOk_step hr hw hstep, ranges_step hr hstep⟩
    exact hinv.1

/-- A chunk of four packets. -/
def fourPackets : List Packet := (List.range 4).map fun i ↦ makeDATA (UInt32.ofNat (i + 1)) 0 []

/-- Packet 1 is sent and times out.  Sent again, it is acknowledged three times, so that packet 2
is sent twice. -/
def resendBoth : List SendEvent :=
  [.begin, .iterate, .timeout 0, .iterate, .ack 1, .iterate, .ack 1, .ack 1, .iterate, .iterate]

/-- Then the threshold is one, the window has four packets, and two of them are on their way. -/
theorem window_never_closes_four : ∃ s : Sending ℚ,
    Machine.run step (init none fourPackets fourPackets.length) resendBoth = some s ∧
    (s.sdr.cwnd, s.sdr.ssthresh, s.sdr.lastAcked, s.sdr.lastSent) = (4, 1, 1, 3) ∧ s.CanSend ∧
    (s.sdr.lastSent : ℚ) - s.sdr.lastAcked ≤ s.sdr.cwnd ∧ s.sdr.lastSent < s.sdr.pkts.length ∧
    ∀ s', Machine.Reaches step s s' → (s'.sdr.ssthresh : ℚ) < s'.sdr.cwnd := by
  have hvalues : (Machine.run step (init none fourPackets fourPackets.length : Sending ℚ)
      resendBoth).map (fun s ↦ ((s.sdr.cwnd, s.sdr.ssthresh, s.sdr.lastAcked, s.sdr.lastSent),
        decide s.CanSend)) = some ((4, 1, 1, 3), true) := by decide +kernel
  obtain ⟨s, hrun, hs⟩ := Option.map_eq_some_iff.mp hvalues
  obtain ⟨hs, hcan⟩ := Prod.mk.inj hs
  have hcan : s.CanSend := of_decide_eq_true hcan
  have hreach : Machine.Reaches step (init none fourPackets fourPackets.length) s := ⟨_, hrun⟩
  obtain ⟨-, hflight, hnext, habove⟩ := window_never_closes (List.cons_ne_nil _ _) hreach
  refine ⟨s, hrun, hs, hcan, hflight, hnext hcan, habove ?_⟩
  simp only [Prod.mk.injEq] at hs
  rw [hs.1, hs.2.1]
  norm_num

end Sending

end BitTorrent
