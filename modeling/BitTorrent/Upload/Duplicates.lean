import BitTorrent.Upload.Safety

/-!
# Duplicate acknowledgments

`process_ACK` counts duplicates in `dup_ack_num` and goes back when the count reaches
`DUP_ACK_NUM`.  The count starts at 0, but an acknowledgment that advances the window and
`retransmit` both set it to 1: from then on the second duplicate is counted as the third.

`Watched` puts beside a sender what the count is meant to be.
-/

namespace BitTorrent

set_option linter.unusedSectionVars false

variable {F : Type} [NatCast F] [Add F] [Div F] [LE F] [DecidableLE F] [TruncU32 F]

/-! ## Fast retransmit -/

namespace Sender

variable {sdr : Sender F} {n : Nat}

/-- `process_ACK` reaches its call of `retransmit`. -/
def FastRetransmits (sdr : Sender F) (n : Nat) : Prop :=
  n < sdr.pktNum ∧ n = sdr.lastAcked ∧ dupAckMax ≤ sdr.dupAckNum + 1

instance (sdr : Sender F) (n : Nat) : Decidable (sdr.FastRetransmits n) :=
  inferInstanceAs (Decidable (_ ∧ _))

/-- `process_ACK` reaches the branch that moves the window on. -/
def Advances (sdr : Sender F) (n : Nat) : Prop := n < sdr.pktNum ∧ sdr.lastAcked < n

instance (sdr : Sender F) (n : Nat) : Decidable (sdr.Advances n) :=
  inferInstanceAs (Decidable (_ ∧ _))

theorem processACK_of_advances (h : sdr.Advances n) :
    sdr.processACK n = ((sdr.advance n).stopTimer, false) := by
  rw [processACK, if_neg (Nat.not_le_of_lt h.1), if_pos h.2]

theorem processACK_of_fastRetransmits (h : sdr.FastRetransmits n) :
    sdr.processACK n =
      (({ sdr with dupAckNum := sdr.dupAckNum + 1 } : Sender F).retransmit n |>.stopTimer, false) := by
  obtain ⟨hn, rfl, hmax⟩ := h
  rw [processACK, if_neg (Nat.not_le_of_lt hn), if_neg (Nat.lt_irrefl _), if_pos rfl, duplicate,
    if_pos hmax]

/-- Any other number below `pkt_num` changes the count only, and that if it repeats the last
one. -/
theorem processACK_of_neither (hn : n < sdr.pktNum) (hnew : ¬ sdr.Advances n)
    (hfast : ¬ sdr.FastRetransmits n) :
    sdr.processACK n =
      (({ sdr with dupAckNum := if n = sdr.lastAcked then sdr.dupAckNum + 1 else sdr.dupAckNum } :
        Sender F).stopTimer, false) := by
  rw [processACK, if_neg (Nat.not_le_of_lt hn), if_neg fun h ↦ hnew ⟨hn, h⟩]
  by_cases hdup : n = sdr.lastAcked
  · rw [if_pos hdup, if_pos hdup, duplicate, if_neg fun h ↦ hfast ⟨hn, hdup, h⟩]
  · rw [if_neg hdup, if_neg hdup]

end Sender

namespace Sending

/-- The step calls `retransmit`. -/
def Retransmits (s : Sending F) : SendEvent → Prop
  | .begin | .iterate => False
  | .timeout id => s.sdr.timer.id = id
  | .ack n => s.pooled = true ∧ s.sdr.FastRetransmits n

/-- The sender after such a step, up to the flags. -/
theorem Retransmits.same {s s' : Sending F} {e : SendEvent} (h : s.Retransmits e)
    (hstep : s.step e = some s') : ∃ n, (s.sdr.retransmit n).Same s'.sdr := by
  cases e with
  | begin => exact h.elim
  | iterate => exact h.elim
  | timeout id =>
      simp only [step, Option.ite_none_right_eq_some, Option.some.injEq] at hstep
      obtain ⟨-, rfl⟩ := hstep
      refine ⟨id, ?_⟩
      rw [sdr_timeout h]
      exact ⟨rfl, rfl, rfl, rfl, rfl, rfl, rfl, rfl, rfl⟩
  | ack n =>
      obtain ⟨hpooled, hfast⟩ := h
      rw [step, Option.some.injEq, processACK, if_pos hpooled,
        Sender.processACK_of_fastRetransmits hfast] at hstep
      subst hstep
      exact ⟨n, rfl, rfl, rfl, rfl, rfl, rfl, rfl, rfl, rfl⟩

end Sending

/-! ## Counting duplicates -/

/-- A sender, with the number of duplicates of `last_acked` that arrived since it last
advanced or the sender last went back, and whether either has happened. -/
structure Watched (F : Type) extends Sending F where
  duplicates : Nat
  restarted : Bool

namespace Watched

/-- A sender that was just added. -/
def init (pRcvr : Option PeerRef) (pkts : List Packet) (num : Nat) : Watched F where
  toSending := .init pRcvr pkts num
  duplicates := 0
  restarted := false

/-- The event advances `last_acked` or calls `retransmit`. -/
def Restarts (w : Watched F) : SendEvent → Prop
  | .begin | .iterate => False
  | .timeout id => w.sdr.timer.id = id
  | .ack n => w.sdr.Advances n ∨ w.sdr.FastRetransmits n

instance (w : Watched F) : DecidablePred w.Restarts
  | .begin | .iterate => inferInstanceAs (Decidable False)
  | .timeout _ => inferInstanceAs (Decidable (_ = _))
  | .ack _ => inferInstanceAs (Decidable (_ ∨ _))

/-- The event is one more duplicate. -/
def Repeats (w : Watched F) (e : SendEvent) : Prop := e = .ack w.sdr.lastAcked

instance (w : Watched F) : DecidablePred w.Repeats := fun _ ↦ inferInstanceAs (Decidable (_ = _))

/-- The steps of a sender that is watched. -/
def step (w : Watched F) (e : SendEvent) : Option (Watched F) :=
  (w.toSending.step e).map fun s ↦
    { toSending := s
      duplicates := if w.Restarts e then 0 else if w.Repeats e then w.duplicates + 1 else w.duplicates
      restarted := w.restarted || decide (w.Restarts e) }

/-- At a delivery the sender goes back exactly if it brings the number of duplicates to
`DUP_ACK_NUM`. -/
def ThirdDuplicate (w : Watched F) (e : SendEvent) : Prop :=
  ∀ n, e = .ack n →
    (w.sdr.FastRetransmits n ↔ n = w.sdr.lastAcked ∧ w.duplicates + 1 = dupAckMax)

/-- A duplicate delivered after the window advanced or the sender went back is the first one
since. -/
def FirstSince (w : Watched F) (e : SendEvent) : Prop :=
  w.Repeats e → w.restarted = true → w.duplicates = 0

/-- What the count of a sender is, its ACKs being below `pkt_num`. -/
structure Counted (num : Nat) (w : Watched F) : Prop where
  pooled : w.pooled = true
  pktNum : w.sdr.pktNum = num
  count : w.sdr.dupAckNum = w.duplicates + w.restarted.toNat
  below : w.sdr.dupAckNum < dupAckMax

variable {num : Nat} {w w' : Watched F} {e : SendEvent}

theorem counted_init (pRcvr : Option PeerRef) (pkts : List Packet) (num : Nat) :
    (init pRcvr pkts num : Watched F).Counted num :=
  ⟨rfl, rfl, rfl, by simp [init, Sending.init, newSender, dupAckMax]⟩

/-- A watched step is a step of the sender. -/
theorem step_cases (h : w.step e = some w') :
    w.toSending.step e = some w'.toSending ∧
      w'.duplicates =
        (if w.Restarts e then 0 else if w.Repeats e then w.duplicates + 1 else w.duplicates) ∧
      w'.restarted = (w.restarted || decide (w.Restarts e)) := by
  obtain ⟨s, hs, rfl⟩ := Option.map_eq_some_iff.mp h
  exact ⟨hs, rfl, rfl⟩

/-- The sender after an ACK, which is in the pool. -/
theorem sdr_of_step_ack {n : Nat} (hpooled : w.pooled = true)
    (h : w.toSending.step (.ack n) = some w'.toSending) :
    w'.sdr = (w.sdr.processACK n).1 ∧ w'.pooled = !(w.sdr.processACK n).2 := by
  rw [Sending.step, Option.some.injEq, Sending.processACK, if_pos hpooled] at h
  rw [← h]
  exact ⟨rfl, rfl⟩

/-- An event other than an ACK keeps the sender in the pool, and its count unless it goes
back. -/
theorem dupAckNum_of_step (he : ∀ n, e ≠ .ack n) (h : w.toSending.step e = some w'.toSending) :
    w'.pooled = w.pooled ∧
      w'.sdr.dupAckNum = if w.Restarts e then 1 else w.sdr.dupAckNum := by
  generalize w'.toSending = s at h ⊢
  cases Sending.step_cases h with
  | begun | idle | first | next => exact ⟨rfl, (if_neg id).symm⟩
  | rewound hid => exact ⟨rfl, (if_pos hid).symm⟩
  | void hid => exact ⟨rfl, (if_neg hid).symm⟩
  | absent | ended | kept => exact absurd rfl (he _)

/-- The count of the sender after a step. -/
theorem Counted.step (h : w.Counted num) (hnum : ∀ n, e = .ack n → n < num)
    (hstep : w.step e = some w') : w'.Counted num := by
  obtain ⟨hs, hdup, hres⟩ := step_cases hstep
  have hpkt : w'.sdr.pktNum = num := (Sending.step_frame hs).2.1.trans h.pktNum
  by_cases hack : ∃ n, e = .ack n
  · obtain ⟨n, rfl⟩ := hack
    have hn : n < w.sdr.pktNum := (hnum n rfl).trans_eq h.pktNum.symm
    obtain ⟨hsdr, hpool⟩ := sdr_of_step_ack h.pooled hs
    by_cases hrestart : w.Restarts (.ack n)
    · rw [if_pos hrestart] at hdup
      have hone : w'.sdr.dupAckNum = 1 ∧ w'.pooled = true := by
        rw [hsdr, hpool]
        rcases hrestart with hnew | hfast
        · rw [Sender.processACK_of_advances hnew]
          exact ⟨rfl, rfl⟩
        · rw [Sender.processACK_of_fastRetransmits hfast]
          exact ⟨rfl, rfl⟩
      refine ⟨hone.2, hpkt, ?_, ?_⟩
      · simp [hone.1, hdup, hres, hrestart]
      · rw [hone.1]
        decide
    · rw [if_neg hrestart] at hdup
      have hneither := Sender.processACK_of_neither hn (fun hc ↦ hrestart (.inl hc))
        (fun hc ↦ hrestart (.inr hc))
      rw [hneither] at hsdr hpool
      have hcount : w'.sdr.dupAckNum =
          if n = w.sdr.lastAcked then w.sdr.dupAckNum + 1 else w.sdr.dupAckNum := by
        rw [hsdr]
        rfl
      have hiff : w.Repeats (.ack n) ↔ n = w.sdr.lastAcked := by simp [Repeats]
      simp only [hiff] at hdup
      simp only [hrestart, decide_false, Bool.or_false] at hres
      refine ⟨hpool, hpkt, ?_, ?_⟩
      · rw [hcount, hdup, hres, h.count]
        split
        · exact Nat.add_right_comm ..
        · rfl
      · rw [hcount]
        split
        · next hrep =>
            -- the third one would have made the sender go back
            exact Nat.lt_of_not_le fun hmax ↦ hrestart (.inr ⟨hn, hrep, hmax⟩)
        · exact h.below
  · obtain ⟨hpool, hcount⟩ := dupAckNum_of_step (fun n hn ↦ hack ⟨n, hn⟩) hs
    have hrep : ¬ w.Repeats e := fun hc ↦ hack ⟨_, hc⟩
    rw [if_neg hrep] at hdup
    refine ⟨hpool.trans h.pooled, hpkt, ?_, ?_⟩
    · rw [hcount, hdup, hres]
      by_cases hrestart : w.Restarts e
      · simp [hrestart]
      · simp [hrestart, h.count]
    · rw [hcount]
      split
      · decide
      · exact h.below

/-- The sender goes back at the third duplicate exactly if the duplicate delivered is the
first one since the last advance or retransmit, when there was one. -/
theorem thirdDuplicate_iff (h : w.Counted num) (hnum : ∀ n, e = .ack n → n < num) :
    w.ThirdDuplicate e ↔ w.FirstSince e := by
  by_cases hrep : w.Repeats e
  · obtain rfl := hrep
    have hn : w.sdr.lastAcked < w.sdr.pktNum := (hnum _ rfl).trans_eq h.pktNum.symm
    have hfast : w.sdr.FastRetransmits w.sdr.lastAcked ↔ dupAckMax ≤ w.sdr.dupAckNum + 1 := by
      simp [Sender.FastRetransmits, hn]
    have hcount := h.count
    have hbelow := h.below
    have hthird : w.ThirdDuplicate (.ack w.sdr.lastAcked) ↔
        (dupAckMax ≤ w.sdr.dupAckNum + 1 ↔ w.duplicates + 1 = dupAckMax) := by
      simp [ThirdDuplicate, hfast]
    have hfirst : w.FirstSince (.ack w.sdr.lastAcked) ↔ (w.restarted = true → w.duplicates = 0) := by
      simp [FirstSince, Repeats]
    rw [hthird, hfirst]
    cases hres : w.restarted with
    | false =>
        rw [hres, Bool.toNat_false] at hcount
        rw [dupAckMax] at hbelow ⊢
        simp only [Bool.false_eq_true, false_implies, iff_true]
        omega
    | true =>
        rw [hres, Bool.toNat_true] at hcount
        rw [dupAckMax] at hbelow ⊢
        simp only [true_implies]
        omega
  · refine iff_of_true ?_ fun hc ↦ absurd hc hrep
    rintro n rfl
    have hne : n ≠ w.sdr.lastAcked := fun hc ↦ hrep (congrArg SendEvent.ack hc)
    exact iff_of_false (fun hc ↦ hne hc.2.1) (fun hc ↦ hne hc.1)

/-- For ACK numbers below `pkt_num`, delivered in any order between any other steps of the
sender: fast retransmit is called exactly at the deliveries that bring the number of
duplicates to `DUP_ACK_NUM` if and only if no duplicate delivered after the window advanced
or the sender went back is the second one since. -/
theorem fast_retransmit_iff {pRcvr : Option PeerRef} {pkts : List Packet} {num : Nat}
    {es : List SendEvent} {w : Watched F} (hnum : ∀ n, .ack n ∈ es → n < num)
    (hrun : Machine.run step (init pRcvr pkts num) es = some w) :
    Machine.Along step ThirdDuplicate (init pRcvr pkts num : Watched F) es ↔
      Machine.Along step FirstSince (init pRcvr pkts num : Watched F) es := by
  have hall : ∀ e ∈ es, ∀ n, e = .ack n → n < num := by
    rintro e he n rfl
    exact hnum n he
  exact Machine.along_congr_of_allowed (P := Counted num) (fun _ _ _ hs he hstep ↦ hs.step he hstep)
    (fun _ _ _ hs he _ ↦ thirdDuplicate_iff hs he) hall hrun (counted_init pRcvr pkts num)

/-- A sender of a chunk of zeros. -/
def zeros : Watched ℚ := init (some 0) (chunk2pkts (.fill 0)).1 dataPktNum

/-- The first acknowledgment and one duplicate of it. -/
theorem fast_retransmit_iff_zeros : ∃ w, Machine.run step zeros [.ack 1, .ack 1] = some w ∧
    (Machine.Along step ThirdDuplicate zeros [.ack 1, .ack 1] ↔
      Machine.Along step FirstSince zeros [.ack 1, .ack 1]) := by
  have hrun : Machine.run step zeros [.ack 1, .ack 1] = some _ := rfl
  refine ⟨_, hrun, fast_retransmit_iff ?_ hrun⟩
  intro n hn
  simp only [List.mem_cons, SendEvent.ack.injEq, List.not_mem_nil, or_false, or_self] at hn
  rw [hn]
  decide

/-- With a second duplicate the sender goes back. -/
theorem fast_retransmit_at_second : ¬ ∀ (es : List SendEvent) (w : Watched ℚ),
    (∀ n, .ack n ∈ es → n < dataPktNum) → Machine.run step zeros es = some w →
      Machine.Along step ThirdDuplicate zeros es := by
  intro h
  have hnum : ∀ n, .ack n ∈ [SendEvent.ack 1, .ack 1, .ack 1] → n < dataPktNum := by
    intro n hn
    simp only [List.mem_cons, SendEvent.ack.injEq, List.not_mem_nil, or_false, or_self] at hn
    rw [hn]
    decide
  have halong := h [.ack 1, .ack 1, .ack 1] _ hnum rfl
  obtain ⟨-, hsecond⟩ := (halong.2 _ rfl).2 _ rfl |>.1 1 rfl |>.mp ⟨by decide, rfl, by decide⟩
  exact absurd hsecond (by decide)

end Watched

end BitTorrent
