import BitTorrent.Upload.Duplicates
import BitTorrent.Upload.Window

/-!
# The window after a loss

In slow start `retransmit` takes the window back to one packet.  Beyond the threshold it
follows TCP Reno: half the window, in whole packets, becomes the threshold, and the window
is three packets more.  For a window of less than five packets that is more than before.
-/

namespace BitTorrent

namespace Sender

variable {sdr : Sender ℚ}

/-- Fast recovery leaves a window of at least five packets no wider than it was. -/
theorem cwnd_retransmit_le_of_five_le (hfast : ¬ sdr.cwnd ≤ (sdr.ssthresh : ℚ)) (h : 5 ≤ sdr.cwnd)
    (n : ℕ) : (sdr.retransmit n).cwnd ≤ sdr.cwnd := by
  obtain ⟨hcwnd, hth⟩ := retransmit_of_fast hfast n
  rw [hcwnd, hth]
  have hhalf : ((⌊sdr.cwnd / 2⌋₊ : ℕ) : ℚ) ≤ sdr.cwnd / 2 := Nat.floor_le (by linarith)
  rcases Nat.lt_or_ge ⌊sdr.cwnd / 2⌋₊ 3 with hlt | hge
  · have htwo : ((⌊sdr.cwnd / 2⌋₊ : ℕ) : ℚ) ≤ 2 := by exact_mod_cast Nat.le_of_lt_succ hlt
    linarith
  · have hthree : (3 : ℚ) ≤ (⌊sdr.cwnd / 2⌋₊ : ℕ) := by exact_mod_cast hge
    linarith

/-- Fast recovery of a window of two or three packets, or of four. -/
theorem cwnd_retransmit_of_lt_five (hfast : ¬ sdr.cwnd ≤ (sdr.ssthresh : ℚ)) (htwo : 2 ≤ sdr.cwnd)
    (h : sdr.cwnd < 5) (n : ℕ) : (sdr.retransmit n).cwnd = if sdr.cwnd < 4 then 4 else 5 := by
  obtain ⟨hcwnd, hth⟩ := retransmit_of_fast hfast n
  rw [hcwnd, hth]
  split
  · next hlt =>
      have hfloor : ⌊sdr.cwnd / 2⌋₊ = 1 := by
        rw [Nat.floor_eq_iff (by linarith)]
        constructor <;> push_cast <;> linarith
      rw [hfloor]
      norm_num
  · next hge =>
      have hfloor : ⌊sdr.cwnd / 2⌋₊ = 2 := by
        rw [Nat.floor_eq_iff (by linarith)]
        constructor <;> push_cast <;> linarith
      rw [hfloor]
      norm_num

/-- Going back leaves the window no wider than it was, unless that is a window beyond the
threshold of less than five packets. -/
theorem WindowOk.cwnd_retransmit_le_iff (h : sdr.WindowOk) (n : ℕ) :
    (sdr.retransmit n).cwnd ≤ sdr.cwnd ↔ sdr.cwnd ≤ (sdr.ssthresh : ℚ) ∨ 5 ≤ sdr.cwnd := by
  by_cases hslow : sdr.cwnd ≤ (sdr.ssthresh : ℚ)
  · rw [(retransmit_of_slow hslow n).1]
    exact iff_of_true h.one_le_cwnd (.inl hslow)
  · by_cases hfive : 5 ≤ sdr.cwnd
    · exact iff_of_true (cwnd_retransmit_le_of_five_le hslow hfive n) (.inr hfive)
    · refine iff_of_false ?_ (not_or.mpr ⟨hslow, hfive⟩)
      have htwo := h.two_le (lt_of_not_ge hslow)
      rw [cwnd_retransmit_of_lt_five hslow htwo (lt_of_not_ge hfive) n]
      split <;> linarith

end Sender

namespace Sending

/-- A step that calls `retransmit`, be it a timeout or a third duplicate, leaves the window at
most as wide as it was exactly if the sender was in slow start or its window five packets at
least.  From any other window it goes to four or five packets. -/
theorem loss_widens_iff {pRcvr : Option PeerRef} {pkts : List Packet} (hpkts : pkts ≠ [])
    {s s' : Sending ℚ} {e : SendEvent}
    (h : Machine.Reaches step (init pRcvr pkts pkts.length) s)
    (hstep : s.step e = some s') (hretransmits : s.Retransmits e) :
    (s'.sdr.cwnd ≤ s.sdr.cwnd ↔ s.sdr.cwnd ≤ (s.sdr.ssthresh : ℚ) ∨ 5 ≤ s.sdr.cwnd) ∧
    ((s.sdr.ssthresh : ℚ) < s.sdr.cwnd → s.sdr.cwnd < 5 →
      s'.sdr.cwnd = if s.sdr.cwnd < 4 then 4 else 5) := by
  obtain ⟨hw, -, -⟩ := ok_of_reaches hpkts h
  obtain ⟨n, hsame⟩ := hretransmits.same hstep
  rw [hsame.cwnd]
  refine ⟨hw.cwnd_retransmit_le_iff n, fun hfast hfive ↦ ?_⟩
  exact Sender.cwnd_retransmit_of_lt_five (not_le_of_gt hfast) (hw.two_le hfast) hfive n

/-- A timeout before anything is sent, then the first packet and its acknowledgment. -/
def narrow : List SendEvent := [.begin, .timeout 0, .iterate, .ack 1]

/-- The window is then two packets wide, its threshold one, and the timer still shows packet
0. -/
theorem run_narrow (pRcvr : Option PeerRef) {pkts : List Packet} (hpkts : 1 < pkts.length) :
    ∃ s : Sending ℚ, Machine.run step (init pRcvr pkts pkts.length) narrow = some s ∧
      s.sdr.cwnd = 2 ∧ s.sdr.ssthresh = 1 ∧ s.sdr.timer.id = 0 ∧ 0 ∈ s.timeouts := by
  let s₁ : Sending ℚ := (init pRcvr pkts pkts.length).beginThread
  let s₂ : Sending ℚ := s₁.timeout 0
  have hback : s₂.sdr = s₁.sdr.retransmit 0 := sdr_timeout rfl
  have hslow : s₁.sdr.cwnd ≤ (s₁.sdr.ssthresh : ℚ) := by
    show ((1 : ℕ) : ℚ) ≤ ((64 : ℕ) : ℚ)
    norm_num
  obtain ⟨hcwnd, hth⟩ := Sender.retransmit_of_slow hslow 0
  have hone : (s₁.sdr.retransmit 0).ssthresh = 1 := by
    rw [hth]
    exact Nat.floor_natCast 1
  have hrun₂ : Machine.run step (init pRcvr pkts pkts.length) [.begin, .timeout 0] = some s₂ := rfl
  have hw : s₂.sdr.WindowOk :=
    (ok_of_reaches (List.ne_nil_of_length_pos (Nat.zero_lt_of_lt hpkts)) ⟨_, hrun₂⟩).1
  have hnum : s₂.sdr.pktNum = pkts.length := by
    rw [hback]
    rfl
  have hzero : s₂.sdr.lastSent = 0 ∧ s₂.sdr.lastAcked = 0 := by
    rw [hback]
    exact ⟨rfl, rfl⟩
  -- the one packet the window has room for
  have hcan : s₂.CanSend := by
    refine ⟨?_, ?_⟩
    · rw [hzero.1, ← hzero.2]
      exact hw.acked_lt_available
    · rw [hzero.1, hnum]
      exact Nat.zero_lt_of_lt hpkts
  have hiter := iterate_first hcan (hzero.1.trans hzero.2.symm) (by
    rw [hzero.2, hnum]
    exact Nat.zero_lt_of_lt hpkts)
  have hack := processACK_new (s := s₂.iterate.1) (n := 1) (by rw [hiter]; rfl)
    (by rw [hiter]; exact hpkts.trans_eq hnum.symm)
    (by rw [hiter]; exact hzero.2.trans_lt Nat.zero_lt_one)
  have hcwnd₃ : s₂.iterate.1.sdr.cwnd = 1 ∧ s₂.iterate.1.sdr.ssthresh = 1 := by
    rw [hiter, ← hcwnd, ← hone, ← hback]
    exact ⟨rfl, rfl⟩
  refine ⟨s₂.iterate.1.processACK 1, ?_, ?_, ?_, ?_, ?_⟩
  · rfl
  · rw [hack]
    show (s₂.iterate.1.sdr.advance 1).cwnd = 2
    simp only [Sender.advance, hcwnd₃]
    norm_num
  · rw [hack]
    exact hcwnd₃.2
  · rw [hack, hiter]
    exact hzero.2
  · rw [hack, hiter, hzero.2]
    exact List.mem_cons_self ..

/-- The next timeout finds the sender in that window. -/
theorem loss_widens_iff_narrow : ∃ s s' : Sending ℚ, s.step (.timeout 0) = some s' ∧
    (s'.sdr.cwnd ≤ s.sdr.cwnd ↔ s.sdr.cwnd ≤ (s.sdr.ssthresh : ℚ) ∨ 5 ≤ s.sdr.cwnd) := by
  have hlen : 1 < (chunk2pkts (.fill 0)).1.length := by
    rw [length_chunk2pkts]
    decide
  obtain ⟨s, hrun, -, -, hid, hpending⟩ := run_narrow none hlen
  have hstep : s.step (.timeout 0) = some (s.timeout 0) := if_pos hpending
  refine ⟨s, _, hstep, (loss_widens_iff ?_ ⟨_, hrun⟩ hstep hid).1⟩
  exact List.ne_nil_of_length_pos (Nat.zero_lt_of_lt hlen)

/-- It widens the window from two packets to four. -/
theorem loss_widens : ¬ ∀ (pkts : List Packet) (s s' : Sending ℚ) (e : SendEvent), pkts ≠ [] →
    Machine.Reaches step (init none pkts pkts.length) s → s.step e = some s' → s.Retransmits e →
      s'.sdr.cwnd ≤ s.sdr.cwnd := by
  intro h
  have hlen : 1 < (chunk2pkts (.fill 0)).1.length := by
    rw [length_chunk2pkts]
    decide
  obtain ⟨s, hrun, hcwnd, hth, hid, hpending⟩ := run_narrow none hlen
  have hstep : s.step (.timeout 0) = some (s.timeout 0) := if_pos hpending
  have hne : (chunk2pkts (.fill 0)).1 ≠ [] := List.ne_nil_of_length_pos (Nat.zero_lt_of_lt hlen)
  have hle := h _ s _ _ hne ⟨_, hrun⟩ hstep hid
  obtain ⟨n, hsame⟩ := Retransmits.same (s := s) (e := .timeout 0) hid hstep
  rw [hsame.cwnd, (ok_of_reaches hne ⟨_, hrun⟩).1.cwnd_retransmit_le_iff, hcwnd, hth] at hle
  norm_num at hle

end Sending

end BitTorrent
