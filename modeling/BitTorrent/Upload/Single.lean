import BitTorrent.Library.Rounding
import BitTorrent.Upload.Lossless

/-!
# The window in single precision

`cwnd` is a `float`: every result of its arithmetic is rounded to 24 binary digits.
The window may then grow by a little less than the exact one, and the edge that is
computed from it may be rounded up.  For a chunk's number of packets it still never
closes, and the edge never gets past `last_acked + cwnd`: what an acknowledgment
adds to the window is more than what rounding can add to the edge.

The exponents are not bounded here.  All numbers that occur lie between `2 ^ (-11)`
and `2 ^ 11`, far within the range of a `float`.
-/

namespace BitTorrent

/-- A value of type `float`. -/
structure Single where
  val : ℚ
  mem : val ∈ Rounding.Digits ℚ 24

namespace Single

/-- The value an exact result is rounded to. -/
def ofRat (q : ℚ) : Single := ⟨Rounding.round 24 q, Rounding.round_mem_digits 24 q⟩

instance : NatCast Single := ⟨fun n ↦ ofRat n⟩
instance : Add Single := ⟨fun a b ↦ ofRat (a.val + b.val)⟩
instance : Div Single := ⟨fun a b ↦ ofRat (a.val / b.val)⟩
instance : LE Single := ⟨fun a b ↦ a.val ≤ b.val⟩
instance : DecidableLE Single := fun a b ↦ inferInstanceAs (Decidable (a.val ≤ b.val))
instance : TruncU32 Single := ⟨fun a ↦ ⌊a.val⌋₊⟩

theorem nearest_ofRat : Rounding.Nearest (Rounding.Digits ℚ 24) fun q ↦ (ofRat q).val :=
  Rounding.nearest_round (by decide)

theorem val_add (a b : Single) : (a + b).val = (ofRat (a.val + b.val)).val := rfl
theorem val_div (a b : Single) : (a / b).val = (ofRat (a.val / b.val)).val := rfl
theorem le_def {a b : Single} : a ≤ b ↔ a.val ≤ b.val := Iff.rfl
theorem truncU32_eq (a : Single) : truncU32 a = ⌊a.val⌋₊ := rfl

/-! ## Exact values -/

theorem natCast_mem {n : ℕ} (h : n ≤ 2 ^ 24) : (n : ℚ) ∈ Rounding.Digits ℚ 24 :=
  Rounding.natCast_mem_digits h

/-- Small whole numbers are exact. -/
theorem val_natCast {n : ℕ} (h : n ≤ 2 ^ 24) : (n : Single).val = n :=
  nearest_ofRat.eq_self (natCast_mem h)

/-- Half a value is exact. -/
theorem val_half (a : Single) : (a / ((2 : ℕ) : Single)).val = a.val / 2 := by
  rw [val_div, val_natCast (by decide)]
  exact nearest_ofRat.eq_self (Rounding.half_mem_digits a.mem)

/-- A sum of small whole numbers is exact. -/
theorem val_add_of_whole {a b : Single} {m n : ℕ} (ha : a.val = m) (hb : b.val = n)
    (h : m + n ≤ 2 ^ 24) : (a + b).val = m + n := by
  have hmem := natCast_mem h
  rw [Nat.cast_add] at hmem
  rw [val_add, ha, hb]
  exact nearest_ofRat.eq_self hmem

/-! ## Bounds -/

variable {q : ℚ} {n : ℕ}

theorem le_val_ofRat (hn : n ≤ 2 ^ 24) (h : (n : ℚ) ≤ q) : (n : ℚ) ≤ (ofRat q).val :=
  nearest_ofRat.le_of_ge (natCast_mem hn) h

theorem val_ofRat_le (hn : n ≤ 2 ^ 24) (h : q ≤ n) : (ofRat q).val ≤ n :=
  nearest_ofRat.le_of_le (natCast_mem hn) h

/-- Below `2 ^ 11` rounding moves a result by at most `2 ^ (-14)`. -/
theorem abs_sub_val_ofRat_le (h : |q| ≤ 2 ^ 11) : |q - (ofRat q).val| ≤ 1 / 2 ^ 14 := by
  have hle : |q| ≤ 2 ^ ((-13 : ℤ) + (24 : ℕ)) := by
    norm_num at h ⊢
    exact h
  refine (Rounding.abs_sub_round_le_of_le (by decide) hle).trans_eq ?_
  norm_num

end Single

/-- What small windows take of the arithmetic. -/
instance : WindowArith Single where
  one_le_one := le_refl (((1 : ℕ) : Single).val)
  slow {c k} hk hone hle := by
    rw [Single.le_def, Single.val_natCast (by decide)] at hone
    rw [Single.le_def, Single.val_natCast (by omega)] at hle
    rw [Single.le_def, Single.le_def, Single.val_natCast (by decide), Single.val_natCast (by omega),
      Single.val_add, Single.val_natCast (by decide)]
    refine ⟨Single.le_val_ofRat (by decide) ?_, Single.val_ofRat_le (by omega) ?_⟩
    · push_cast at hone ⊢
      linarith
    · push_cast
      linarith
  beyond {c k} hk hone hle := by
    rw [Single.le_def, Single.val_natCast (by decide), Nat.cast_one] at hone
    rw [Single.le_def, Single.val_natCast (by omega)] at hle
    have hpos : 0 < c.val := zero_lt_one.trans_le hone
    have hstep : 0 ≤ (((1 : ℕ) : Single) / c).val ∧ (((1 : ℕ) : Single) / c).val ≤ 1 := by
      rw [Single.val_div, Single.val_natCast (by decide), Nat.cast_one]
      have hdiv : 1 / c.val ≤ (1 : ℕ) := by
        rw [Nat.cast_one]
        exact (div_le_one hpos).mpr hone
      have hlow := Single.le_val_ofRat (n := 0) (by decide) (Nat.cast_zero.trans_le
        (one_div_pos.mpr hpos).le)
      have hhigh := Single.val_ofRat_le (by decide) hdiv
      exact ⟨by exact_mod_cast hlow, by exact_mod_cast hhigh⟩
    rw [Single.le_def, Single.le_def, Single.val_natCast (by decide), Single.val_natCast (by omega),
      Single.val_add]
    refine ⟨Single.le_val_ofRat (by decide) ?_, Single.val_ofRat_le (by omega) ?_⟩
    · push_cast
      linarith
    · push_cast
      linarith
  edge {c n k} hn hk hone hle := by
    rw [Single.le_def, Single.val_natCast (by decide), Nat.cast_one] at hone
    have hedge := Single.le_val_ofRat (n := n + 1) (q := n + c.val) (by omega) (by
      push_cast
      linarith)
    rw [Single.truncU32_eq, Single.val_add, Single.val_natCast (by omega)]
    exact Nat.lt_of_succ_le (Nat.le_floor hedge)

namespace Sender

/-! ## One sender -/

/-- The window of a sender of at most 512 packets and the counters around it. -/
structure SingleOk (sdr : Sender Single) : Prop where
  few : sdr.pktNum ≤ 512
  one_le_cwnd : 1 ≤ sdr.cwnd.val
  one_le_ssthresh : 1 ≤ sdr.ssthresh
  ssthresh_le : sdr.ssthresh ≤ 2 ^ 11
  whole : sdr.cwnd.val ≤ sdr.ssthresh → ∃ k : ℕ, sdr.cwnd.val = k
  two_le : (sdr.ssthresh : ℚ) < sdr.cwnd.val → 2 ≤ sdr.cwnd.val
  acked_lt : sdr.lastAcked < sdr.pktNum
  acked_lt_available : sdr.lastAcked < sdr.lastAvailable
  available_le : (sdr.lastAvailable : ℚ) ≤ sdr.lastAcked + sdr.cwnd.val
  sent_le_available : sdr.lastSent ≤ sdr.lastAvailable
  fits : sdr.cwnd.val + (sdr.pktNum - sdr.lastAcked) ≤ 2 * (sdr.pktNum + 3)

variable {sdr : Sender Single} {n : ℕ}

theorem singleOk_newSender {pRcvr : Option PeerRef} {pkts : List Packet} {num : Nat}
    (hpos : 0 < num) (hnum : num ≤ 512) : (newSender pRcvr pkts num : Sender Single).SingleOk := by
  have hone : ((1 : ℕ) : Single).val = 1 := (Single.val_natCast (by decide)).trans Nat.cast_one
  have hcwnd : (newSender pRcvr pkts num : Sender Single).cwnd.val = 1 := hone
  refine ⟨hnum, hcwnd.ge, ?_, ?_, ?_, ?_, hpos, Nat.one_pos, ?_, Nat.zero_le _, ?_⟩
  · simp [newSender, ssthreshDefault]
  · simp [newSender, ssthreshDefault]
  · exact fun _ ↦ ⟨1, by rw [hcwnd, Nat.cast_one]⟩
  · intro h
    rw [hcwnd] at h
    simp only [newSender, ssthreshDefault] at h
    norm_num at h
  · rw [hcwnd]
    simp [newSender, cwndDefault]
  · have h : (0 : ℚ) ≤ num := Nat.cast_nonneg num
    rw [hcwnd]
    simp only [newSender, Nat.cast_zero]
    linarith

namespace SingleOk

/-- The comparison with the threshold is exact. -/
theorem le_ssthresh_iff (h : sdr.SingleOk) :
    sdr.cwnd ≤ (sdr.ssthresh : Single) ↔ sdr.cwnd.val ≤ sdr.ssthresh := by
  rw [Single.le_def, Single.val_natCast (h.ssthresh_le.trans (by decide))]

/-- The window is small. -/
theorem cwnd_le (h : sdr.SingleOk) : sdr.cwnd.val ≤ 1029 := by
  have hfew : (sdr.pktNum : ℚ) ≤ 512 := by exact_mod_cast h.few
  have hacked : (sdr.lastAcked : ℚ) + 1 ≤ sdr.pktNum := by exact_mod_cast h.acked_lt
  have hfits := h.fits
  linarith

/-- In slow start an ACK widens the window by one packet. -/
theorem cwnd_advance_of_slow (h : sdr.SingleOk) (hslow : sdr.cwnd.val ≤ sdr.ssthresh) (n : ℕ) :
    (sdr.advance n).cwnd.val = sdr.cwnd.val + 1 := by
  obtain ⟨k, hk⟩ := h.whole hslow
  have hone : ((1 : ℕ) : Single).val = (1 : ℕ) := Single.val_natCast (by decide)
  have hsmall : k + 1 ≤ 2 ^ 24 := by
    have hle := h.cwnd_le
    rw [hk] at hle
    have hnat : k ≤ 1029 := by exact_mod_cast hle
    omega
  rw [Sender.advance, if_pos (h.le_ssthresh_iff.mpr hslow), Single.val_add_of_whole hk hone hsmall,
    hk, Nat.cast_one]

/-- Beyond the threshold by at most one packet, and by more than what rounding does. -/
theorem cwnd_advance_of_fast (h : sdr.SingleOk) (hfast : ¬ sdr.cwnd.val ≤ sdr.ssthresh) (n : ℕ) :
    sdr.cwnd.val + 1 / 2 ^ 14 ≤ (sdr.advance n).cwnd.val ∧
      (sdr.advance n).cwnd.val ≤ sdr.cwnd.val + 1 := by
  have htwo := h.two_le (lt_of_not_ge hfast)
  have hle := h.cwnd_le
  have hpos : 0 < sdr.cwnd.val := by linarith
  -- the reciprocal, and what is left of it
  have hlow : 1 / 2 ^ 11 ≤ 1 / sdr.cwnd.val := one_div_le_one_div_of_le hpos (by linarith)
  have hhigh : 1 / sdr.cwnd.val ≤ 1 / 2 := one_div_le_one_div_of_le two_pos htwo
  have hstep := abs_le.mp (Single.abs_sub_val_ofRat_le (q := 1 / sdr.cwnd.val)
    (abs_le.mpr ⟨by linarith, by linarith⟩))
  have hdiv : (((1 : ℕ) : Single) / sdr.cwnd).val = (Single.ofRat (1 / sdr.cwnd.val)).val := by
    rw [Single.val_div, Single.val_natCast (by decide), Nat.cast_one]
  have hsum := abs_le.mp (Single.abs_sub_val_ofRat_le
    (q := sdr.cwnd.val + (Single.ofRat (1 / sdr.cwnd.val)).val)
    (abs_le.mpr ⟨by linarith, by linarith⟩))
  rw [Sender.advance, if_neg (fun hc ↦ hfast (h.le_ssthresh_iff.mp hc)), Single.val_add, hdiv]
  constructor
  · linarith
  · linarith

/-- An ACK widens the window by at most one packet, and by more than what rounding does. -/
theorem cwnd_advance (h : sdr.SingleOk) (n : ℕ) :
    sdr.cwnd.val + 1 / 2 ^ 14 ≤ (sdr.advance n).cwnd.val ∧
      (sdr.advance n).cwnd.val ≤ sdr.cwnd.val + 1 := by
  by_cases hslow : sdr.cwnd.val ≤ sdr.ssthresh
  · rw [h.cwnd_advance_of_slow hslow]
    norm_num
  · exact h.cwnd_advance_of_fast hslow n

/-- The edge is past what is acknowledged, and rounding does not get it past the window that
the ACK leaves. -/
theorem edge (h : sdr.SingleOk) (hn : n < sdr.pktNum) :
    n + 1 ≤ (sdr.advance n).lastAvailable ∧
      ((sdr.advance n).lastAvailable : ℚ) ≤ n + (sdr.advance n).cwnd.val := by
  have hfew := h.few
  have hle := h.cwnd_le
  have hone := h.one_le_cwnd
  have hsmall : (n : ℚ) ≤ 512 := by exact_mod_cast hn.le.trans hfew
  have hnonneg : (0 : ℚ) ≤ n := Nat.cast_nonneg n
  have hedge : (sdr.advance n).lastAvailable = ⌊(Single.ofRat (n + sdr.cwnd.val)).val⌋₊ := by
    show truncU32 ((n : Single) + sdr.cwnd) = _
    rw [Single.truncU32_eq, Single.val_add, Single.val_natCast (by omega)]
  have herr := abs_le.mp (Single.abs_sub_val_ofRat_le (q := n + sdr.cwnd.val)
    (abs_le.mpr ⟨by linarith, by linarith⟩))
  have hlow := Single.le_val_ofRat (n := n + 1) (q := n + sdr.cwnd.val) (by omega) (by
    push_cast
    linarith)
  have hwide := (h.cwnd_advance n).1
  rw [hedge]
  refine ⟨Nat.le_floor hlow, ?_⟩
  have hpos : 0 ≤ (Single.ofRat (n + sdr.cwnd.val)).val := (Nat.cast_nonneg _).trans hlow
  have hfloor := Nat.floor_le hpos
  linarith

/-- An ACK that acknowledges something new leaves a good window. -/
theorem advance (h : sdr.SingleOk) (hn : n < sdr.pktNum) (hnew : sdr.lastAcked < n) :
    (sdr.advance n).SingleOk := by
  obtain ⟨hwide, hnarrow⟩ := h.cwnd_advance n
  obtain ⟨hopen, hedge⟩ := h.edge hn
  have hone := h.one_le_cwnd
  have hacked : (sdr.lastAcked : ℚ) + 1 ≤ n := by exact_mod_cast hnew
  refine ⟨h.few, by linarith, h.one_le_ssthresh, h.ssthresh_le, ?_, ?_, hn, hopen, hedge, ?_, ?_⟩
  · intro hle
    have hslow : sdr.cwnd.val ≤ sdr.ssthresh := by
      have hsame : (sdr.advance n).ssthresh = sdr.ssthresh := rfl
      rw [hsame] at hle
      linarith
    obtain ⟨k, hk⟩ := h.whole hslow
    refine ⟨k + 1, ?_⟩
    rw [h.cwnd_advance_of_slow hslow, hk]
    push_cast
    rfl
  · intro hgt
    by_cases hslow : sdr.cwnd.val ≤ sdr.ssthresh
    · rw [h.cwnd_advance_of_slow hslow]
      linarith
    · have htwo := h.two_le (lt_of_not_ge hslow)
      linarith
  · -- what has been sent is a whole number below the edge that is rounded
    have hfew := h.few
    have hsent : (sdr.lastSent : ℚ) ≤ sdr.lastAvailable := by exact_mod_cast h.sent_le_available
    have hle := h.cwnd_le
    have havailable := h.available_le
    have hsmall : (sdr.lastSent : ℚ) ≤ 1541 := by
      have hlast : (sdr.lastAcked : ℚ) ≤ 512 := by exact_mod_cast h.acked_lt.le.trans hfew
      linarith
    have hnat : sdr.lastSent ≤ 1541 := by exact_mod_cast hsmall
    have hround := Single.le_val_ofRat (n := sdr.lastSent) (q := n + sdr.cwnd.val) (by omega)
      (by linarith)
    show sdr.lastSent ≤ truncU32 ((n : Single) + sdr.cwnd)
    rw [Single.truncU32_eq, Single.val_add, Single.val_natCast (by omega)]
    exact Nat.le_floor hround
  · have hfits := h.fits
    rw [lastAcked_advance, pktNum_advance]
    linarith

/-- Going back in slow start. -/
theorem retransmit_of_slow (h : sdr.SingleOk) (hslow : sdr.cwnd.val ≤ sdr.ssthresh) (n : ℕ) :
    (sdr.retransmit n).cwnd.val = 1 ∧ (sdr.retransmit n).ssthresh = ⌊sdr.cwnd.val⌋₊ := by
  have hle := h.le_ssthresh_iff.mpr hslow
  have hone : ((1 : ℕ) : Single).val = 1 := (Single.val_natCast (by decide)).trans Nat.cast_one
  constructor
  · rw [Sender.retransmit]
    simp only [hle, if_true]
    exact hone
  · rw [Sender.retransmit]
    simp only [hle, if_true]
    exact Single.truncU32_eq _

/-- Half a window is small. -/
theorem floor_half_le (h : sdr.SingleOk) : ⌊sdr.cwnd.val / 2⌋₊ ≤ 1029 := by
  have hbound := h.cwnd_le
  have hone := h.one_le_cwnd
  exact Nat.floor_le_of_le (by push_cast; linarith)

/-- Going back beyond the threshold: half of the window is exact. -/
theorem retransmit_of_fast (h : sdr.SingleOk) (hfast : ¬ sdr.cwnd.val ≤ sdr.ssthresh) (n : ℕ) :
    (sdr.retransmit n).cwnd.val = ((sdr.retransmit n).ssthresh : ℚ) + 3 ∧
      (sdr.retransmit n).ssthresh = ⌊sdr.cwnd.val / 2⌋₊ := by
  have hnot := h.le_ssthresh_iff.not.mpr hfast
  have hhalf : truncU32 (sdr.cwnd / ((2 : ℕ) : Single)) = ⌊sdr.cwnd.val / 2⌋₊ := by
    rw [Single.truncU32_eq, Single.val_half]
  have hle := h.floor_half_le
  have hth : (sdr.retransmit n).ssthresh = ⌊sdr.cwnd.val / 2⌋₊ := by
    rw [Sender.retransmit]
    simp only [hnot, if_false]
    exact hhalf
  refine ⟨?_, hth⟩
  rw [hth, Sender.retransmit]
  simp only [hnot, if_false, hhalf, dupAckMax]
  rw [Single.val_natCast (by omega)]
  push_cast
  rfl

/-- The threshold that is left is not zero. -/
theorem ssthresh_retransmit (h : sdr.SingleOk) (n : ℕ) :
    1 ≤ (sdr.retransmit n).ssthresh ∧ (sdr.retransmit n).ssthresh ≤ 1029 := by
  have hone := h.one_le_cwnd
  by_cases hslow : sdr.cwnd.val ≤ sdr.ssthresh
  · rw [(h.retransmit_of_slow hslow n).2]
    exact ⟨Nat.le_floor (by simpa using hone), Nat.floor_le_of_le (by simpa using h.cwnd_le)⟩
  · rw [(h.retransmit_of_fast hslow n).2]
    have htwo := h.two_le (lt_of_not_ge hslow)
    refine ⟨Nat.le_floor ?_, h.floor_half_le⟩
    push_cast
    linarith

/-- The window that is left is a whole number, and three packets beyond its threshold if it
is beyond it at all. -/
theorem exists_cwnd_retransmit (h : sdr.SingleOk) (n : ℕ) : ∃ k : ℕ, (sdr.retransmit n).cwnd.val = k ∧
    1 ≤ k ∧ k ≤ 1032 ∧ ((sdr.retransmit n).ssthresh < k → k = (sdr.retransmit n).ssthresh + 3) := by
  obtain ⟨hpos, hle⟩ := h.ssthresh_retransmit n
  by_cases hslow : sdr.cwnd.val ≤ sdr.ssthresh
  · refine ⟨1, ?_, le_refl _, by omega, fun hgt ↦ by omega⟩
    rw [(h.retransmit_of_slow hslow n).1, Nat.cast_one]
  · refine ⟨(sdr.retransmit n).ssthresh + 3, ?_, by omega, by omega, fun _ ↦ rfl⟩
    rw [(h.retransmit_of_fast hslow n).1]
    push_cast
    rfl

/-- It fits behind any packet. -/
theorem fits_retransmit (h : sdr.SingleOk) (n : ℕ) : (sdr.retransmit n).cwnd.val +
    ((sdr.retransmit n).pktNum - (sdr.retransmit n).lastAcked) ≤
      2 * ((sdr.retransmit n).pktNum + 3) := by
  have hfits := h.fits
  have hacked : (sdr.lastAcked : ℚ) + 1 ≤ sdr.pktNum := by exact_mod_cast h.acked_lt
  have hn : (0 : ℚ) ≤ n := Nat.cast_nonneg n
  rw [lastAcked_retransmit, pktNum_retransmit]
  by_cases hslow : sdr.cwnd.val ≤ sdr.ssthresh
  · rw [(h.retransmit_of_slow hslow n).1]
    linarith
  · have hone := h.one_le_cwnd
    have hhalf : ((⌊sdr.cwnd.val / 2⌋₊ : ℕ) : ℚ) ≤ sdr.cwnd.val / 2 :=
      Nat.floor_le (by linarith)
    rw [(h.retransmit_of_fast hslow n).1, (h.retransmit_of_fast hslow n).2]
    linarith

/-- Going back to any packet leaves a good window. -/
theorem retransmit (h : sdr.SingleOk) (hn : n < sdr.pktNum) : (sdr.retransmit n).SingleOk := by
  obtain ⟨k, hk, hone, hle, hbeyond⟩ := h.exists_cwnd_retransmit n
  obtain ⟨hpos, hsmall⟩ := h.ssthresh_retransmit n
  have hfew := h.few
  have hk1 : (1 : ℚ) ≤ k := by exact_mod_cast hone
  -- the edge is a sum of whole numbers
  have hedge : (sdr.retransmit n).lastAvailable = n + k := by
    have hsum := Single.val_add_of_whole (Single.val_natCast (n := n) (by omega)) hk (by omega)
    show truncU32 ((n : Single) + (sdr.retransmit n).cwnd) = n + k
    rw [Single.truncU32_eq, hsum, ← Nat.cast_add, Nat.floor_natCast]
  refine ⟨hfew, hk ▸ hk1, hpos, by omega, fun _ ↦ ⟨k, hk⟩, ?_, hn, ?_, ?_, ?_, h.fits_retransmit n⟩
  · intro hgt
    rw [hk] at hgt ⊢
    have hthree := hbeyond (by exact_mod_cast hgt)
    exact_mod_cast (by omega : 2 ≤ k)
  · rw [hedge, lastAcked_retransmit]
    omega
  · rw [hedge, hk, lastAcked_retransmit, Nat.cast_add]
  · rw [hedge, lastSent_retransmit]
    omega

theorem congr {sdr' : Sender Single} (hs : sdr.Same sdr') (h : sdr.SingleOk) : sdr'.SingleOk := by
  obtain ⟨hth, hcw, hsent, hack, hav, hnum, -, -⟩ := hs
  refine ⟨?_, ?_, ?_, ?_, ?_, ?_, ?_, ?_, ?_, ?_, ?_⟩
  · rw [hnum]; exact h.few
  · rw [hcw]; exact h.one_le_cwnd
  · rw [hth]; exact h.one_le_ssthresh
  · rw [hth]; exact h.ssthresh_le
  · rw [hcw, hth]; exact h.whole
  · rw [hcw, hth]; exact h.two_le
  · rw [hack, hnum]; exact h.acked_lt
  · rw [hack, hav]; exact h.acked_lt_available
  · rw [hack, hav, hcw]; exact h.available_le
  · rw [hsent, hav]; exact h.sent_le_available
  · rw [hcw, hnum, hack]; exact h.fits

end SingleOk

end Sender

/-! ## Steps -/

namespace Sending

open Sender

/-- The window survives every step, and above its threshold it stays above it. -/
theorem singleOk_step {s s' : Sending Single} {e : SendEvent} (hr : s.sdr.Ranges)
    (hw : s.sdr.SingleOk) (h : s.step e = some s') : s'.sdr.SingleOk ∧
      ((s.sdr.ssthresh : ℚ) < s.sdr.cwnd.val → (s'.sdr.ssthresh : ℚ) < s'.sdr.cwnd.val) := by
  have hall : s'.sdr.SingleOk ∧ s'.sdr.timer.id < s'.sdr.pktNum ∧
      ((s.sdr.ssthresh : ℚ) < s.sdr.cwnd.val → (s'.sdr.ssthresh : ℚ) < s'.sdr.cwnd.val) := by
    refine step_preserves (P := fun sdr ↦ sdr.SingleOk ∧ sdr.timer.id < sdr.pktNum ∧
      ((s.sdr.ssthresh : ℚ) < s.sdr.cwnd.val → (sdr.ssthresh : ℚ) < sdr.cwnd.val))
      ?_ ?_ ?_ ?_ ?_ ⟨hw, Nat.lt_of_le_of_lt hr.timer_le hr.acked_lt, fun habove ↦ habove⟩ h
    · rintro sdr sdr' hs ⟨hok, hid, habove⟩
      refine ⟨hok.congr hs, ?_, ?_⟩
      · rw [hs.id, hs.pktNum]
        exact hid
      · rw [hs.ssthresh, hs.cwnd]
        exact habove
    · rintro sdr n ⟨hok, hid, habove⟩ hn hnew
      refine ⟨hok.advance hn hnew, hid, fun hgt ↦ ?_⟩
      have hwide := (hok.cwnd_advance n).1
      have hold := habove hgt
      show (sdr.ssthresh : ℚ) < _
      linarith
    · rintro sdr n ⟨hok, hid, habove⟩ hn
      refine ⟨hok.retransmit ?_, hid, fun hgt ↦ ?_⟩
      · rcases hn with rfl | rfl
        · exact hok.acked_lt
        · exact hid
      · rw [(hok.retransmit_of_fast (not_le_of_gt (habove hgt)) n).1]
        linarith
    · rintro sdr ⟨⟨h₀, h₁, h₂, h₃, h₄, h₅, h₆, h₇, h₈, h₉, h₁₀⟩, -, habove⟩
      exact ⟨⟨h₀, h₁, h₂, h₃, h₄, h₅, h₆, h₇, h₈, h₉, h₁₀⟩, h₆, habove⟩
    · rintro sdr ⟨⟨h₀, h₁, h₂, h₃, h₄, h₅, h₆, h₇, h₈, -, h₁₀⟩, hid, habove⟩ hav -
      exact ⟨⟨h₀, h₁, h₂, h₃, h₄, h₅, h₆, h₇, h₈, hav, h₁₀⟩, hid, habove⟩
  exact ⟨hall.1, hall.2.2⟩

/-- With the bounds of the counters it holds in every state a sender can reach. -/
theorem singleOk_of_reaches {pRcvr : Option PeerRef} {pkts : List Packet} (hpkts : pkts ≠ [])
    (hnum : pkts.length ≤ 512) {s : Sending Single}
    (h : Machine.Reaches step (init pRcvr pkts pkts.length) s) :
    s.sdr.SingleOk ∧ s.sdr.Ranges ∧ s.sdr.pktNum = s.sdr.pkts.length := by
  refine h.invariant (P := fun s : Sending Single ↦
    s.sdr.SingleOk ∧ s.sdr.Ranges ∧ s.sdr.pktNum = s.sdr.pkts.length) ?_ ?_
  · rintro s e s' ⟨hw, hr, hlen⟩ hstep
    obtain ⟨hpkts', hnum', -⟩ := step_frame hstep
    refine ⟨(singleOk_step hr hw hstep).1, ranges_step hr hstep, ?_⟩
    rw [hpkts', hnum']
    exact hlen
  · have hpos := List.length_pos_iff.mpr hpkts
    exact ⟨Sender.singleOk_newSender hpos hnum, Sender.ranges_newSender hpos, rfl⟩

/-- With the arithmetic of a `float`, whatever numbers the acknowledgments carry and whenever
timeouts fire: the window stays open and small, the counters stay inside it, at most `cwnd`
packets past `last_acked` are outstanding, the packet to send always exists, and a window above
its threshold never falls back to it. -/
theorem single_window_never_closes {pRcvr : Option PeerRef} {pkts : List Packet} (hpkts : pkts ≠ [])
    (hnum : pkts.length ≤ 512) {s : Sending Single}
    (h : Machine.Reaches step (init pRcvr pkts pkts.length) s) :
    (1 ≤ s.sdr.cwnd.val ∧ s.sdr.cwnd.val ≤ 1029 ∧ 1 ≤ s.sdr.ssthresh ∧
      s.sdr.lastAcked < s.sdr.pktNum ∧ s.sdr.lastAcked < s.sdr.lastAvailable ∧
      (s.sdr.lastAvailable : ℚ) ≤ s.sdr.lastAcked + s.sdr.cwnd.val ∧
      s.sdr.lastSent ≤ s.sdr.lastAvailable ∧ s.sdr.lastSent ≤ s.sdr.pktNum) ∧
    (s.sdr.lastSent : ℚ) - s.sdr.lastAcked ≤ s.sdr.cwnd.val ∧
    (s.CanSend → s.sdr.lastSent < s.sdr.pkts.length) ∧
    ((s.sdr.ssthresh : ℚ) < s.sdr.cwnd.val →
      ∀ s', Machine.Reaches step s s' → (s'.sdr.ssthresh : ℚ) < s'.sdr.cwnd.val) := by
  obtain ⟨hw, hr, hlen⟩ := singleOk_of_reaches hpkts hnum h
  refine ⟨⟨hw.one_le_cwnd, hw.cwnd_le, hw.one_le_ssthresh, hw.acked_lt, hw.acked_lt_available,
    hw.available_le, hw.sent_le_available, hr.sent_le⟩, ?_, ?_, ?_⟩
  · have hsent : (s.sdr.lastSent : ℚ) ≤ s.sdr.lastAvailable := by exact_mod_cast hw.sent_le_available
    have havailable := hw.available_le
    linarith
  · intro hcan
    rw [← hlen]
    exact hcan.2
  · intro habove s' hs'
    have hinv : (s'.sdr.ssthresh : ℚ) < s'.sdr.cwnd.val ∧ s'.sdr.SingleOk ∧ s'.sdr.Ranges := by
      refine hs'.invariant (P := fun s : Sending Single ↦
        (s.sdr.ssthresh : ℚ) < s.sdr.cwnd.val ∧ s.sdr.SingleOk ∧ s.sdr.Ranges) ?_ ⟨habove, hw, hr⟩
      rintro s e s' ⟨habove, hw, hr⟩ hstep
      obtain ⟨hw', habove'⟩ := singleOk_step hr hw hstep
      exact ⟨habove' habove, hw', ranges_step hr hstep⟩
    exact hinv.1

/-- After a timeout and a fast retransmission, two ACKs widen the window beyond its threshold:
first to 4.25 packets, and by `1 / 4.25` then, which is rounded. -/
theorem single_window_never_closes_four : ∃ s : Sending Single,
    Machine.run step (init none fourPackets fourPackets.length)
      (resendBoth ++ [.ack 2, .ack 3]) = some s ∧
    (s.sdr.cwnd.val, s.sdr.ssthresh, s.sdr.lastAcked, s.sdr.lastSent, s.sdr.lastAvailable) =
      (1175793 / 262144, 1, 3, 3, 7) ∧ s.CanSend ∧
    (s.sdr.lastAvailable : ℚ) ≤ s.sdr.lastAcked + s.sdr.cwnd.val ∧
    (s.sdr.lastSent : ℚ) - s.sdr.lastAcked ≤ s.sdr.cwnd.val ∧
    s.sdr.lastSent < s.sdr.pkts.length ∧
    ∀ s', Machine.Reaches step s s' → (s'.sdr.ssthresh : ℚ) < s'.sdr.cwnd.val := by
  have hvalues : (Machine.run step (init none fourPackets fourPackets.length : Sending Single)
      (resendBoth ++ [.ack 2, .ack 3])).map (fun s ↦ ((s.sdr.cwnd.val, s.sdr.ssthresh,
        s.sdr.lastAcked, s.sdr.lastSent, s.sdr.lastAvailable), decide s.CanSend)) =
          some ((1175793 / 262144, 1, 3, 3, 7), true) := by decide +kernel
  obtain ⟨s, hrun, hs⟩ := Option.map_eq_some_iff.mp hvalues
  obtain ⟨hs, hcan⟩ := Prod.mk.inj hs
  have hcan : s.CanSend := of_decide_eq_true hcan
  have hreach : Machine.Reaches step (init none fourPackets fourPackets.length) s := ⟨_, hrun⟩
  obtain ⟨⟨-, -, -, -, -, hedge, -, -⟩, hflight, hnext, habove⟩ :=
    single_window_never_closes (List.cons_ne_nil _ _) (by decide) hreach
  refine ⟨s, hrun, hs, hcan, hedge, hflight, hnext hcan, habove ?_⟩
  simp only [Prod.mk.injEq] at hs
  rw [hs.1, hs.2.1]
  norm_num

end Sending

end BitTorrent
