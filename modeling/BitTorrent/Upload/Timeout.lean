import BitTorrent.Upload.Progress

/-!
# Late timeouts

The one guard of `t_start` is that the timer still shows the packet the timeout
was armed for.  The timer is set again only when the first packet of a window is
sent, so with a window kept full by acknowledgments it shows a packet that was
acknowledged long ago, and its timeout takes those acknowledgments back.  This is
the only way `last_acked` ever decreases.
-/

namespace BitTorrent

set_option linter.unusedSectionVars false

variable {F : Type} [NatCast F] [Add F] [Div F] [LE F] [DecidableLE F] [TruncU32 F]

/-- The packets a sender counts as not acknowledged and may send. -/
def Sender.InWindow (sdr : Sender F) (n : Nat) : Prop :=
  sdr.lastAcked < n ∧ n ≤ sdr.lastAvailable

namespace Upload

/-- The step keeps what was acknowledged: `last_acked` does not decrease, the
timeout of an acknowledged packet has no effect on the sender, and no
acknowledged packet is in the window afterwards. -/
def KeepsAcked (u : Upload F) (e : Event) : Prop :=
  ∀ u', u.step e = some u' →
    u.sdr.lastAcked ≤ u'.sdr.lastAcked ∧
    (∀ id, e = .timeout id → id < u.sdr.lastAcked → u'.sdr = u.sdr) ∧
    ∀ n ≤ u.sdr.lastAcked, ¬ u'.sdr.InWindow n

/-- The event is the timeout of an acknowledged packet, which the timer still shows. -/
def LateTimeout (u : Upload F) (e : Event) : Prop :=
  ∃ id, e = .timeout id ∧ u.sdr.timer.id = id ∧ id < u.sdr.lastAcked

variable {u u' : Upload F} {e : Event}

/-- Without a late timeout no acknowledgment is taken back. -/
theorem lastAcked_le_step (h : u.step e = some u') (hlate : ¬ u.LateTimeout e) :
    u.sdr.lastAcked ≤ u'.sdr.lastAcked := by
  have hsending : ∀ {e' : SendEvent} {s : Sending F}, u.sending.step e' = some s →
      (e' = .timeout u.sdr.timer.id → e = .timeout u.sdr.timer.id) →
        u.sdr.lastAcked ≤ s.sdr.lastAcked := by
    intro e' s hs he
    rcases Sending.lastAcked_cases hs with heq | ⟨n, -, hnew, heq⟩ | ⟨htimeout, heq⟩
    · exact Nat.le_of_eq heq.symm
    · exact heq ▸ Nat.le_of_lt hnew
    · refine Nat.le_of_not_lt fun hlt ↦ hlate ⟨u.sdr.timer.id, he htimeout, rfl, ?_⟩
      exact heq ▸ hlt
  cases step_cases h with
  | begins hs | sends hs | acked _ hs => exact hsending hs (by rintro ⟨⟩)
  | expires hs =>
      apply hsending hs
      rintro ⟨⟩
      rfl
  | arrives | network => exact Nat.le_refl _

/-- A timeout that fires is one of the sender. -/
theorem sending_of_timeout {id : Nat} (h : u.step (.timeout id) = some u') :
    u'.sending = u.sending.timeout id := by
  obtain ⟨s, hs, rfl⟩ := Option.map_eq_some_iff.mp h
  rw [Sending.step, Option.ite_none_right_eq_some, Option.some.injEq] at hs
  exact hs.2.symm

/-- The timeout of an acknowledged packet leaves the sender alone unless the timer
still shows that packet. -/
theorem sdr_timeout_step {id : Nat} (h : u.step (.timeout id) = some u')
    (hid : u.sdr.timer.id ≠ id) : u'.sdr = u.sdr := by
  show u'.sending.sdr = _
  rw [sending_of_timeout h]
  exact if_neg hid

/-- A step keeps what was acknowledged exactly when it is no late timeout. -/
theorem keepsAcked_iff (h : u.step e = some u') :
    u.KeepsAcked e ↔ ¬ u.LateTimeout e := by
  constructor
  · rintro hkeeps ⟨id, rfl, hid, hlt⟩
    have hback : u'.sdr.lastAcked = id := by
      show u'.sending.sdr.lastAcked = id
      rw [sending_of_timeout h, Sending.sdr_timeout hid]
      rfl
    exact absurd (hback ▸ (hkeeps u' h).1) (Nat.not_le_of_lt hlt)
  · intro hlate v hv
    have hle := lastAcked_le_step hv hlate
    refine ⟨hle, ?_, ?_⟩
    · rintro id rfl hlt
      exact sdr_timeout_step hv fun hid ↦ hlate ⟨id, rfl, hid, hlt⟩
    · rintro n hn ⟨hlt, -⟩
      exact absurd (hn.trans hle) (Nat.not_le_of_lt hlt)

/-- A run keeps what was acknowledged, in each of its steps, exactly when none of
its steps is a late timeout. -/
theorem run_keeps_acked_iff {pRcvr pSdr : PeerRef} {chunk : ChunkRef} {content buffer : ChunkData}
    {es : List Event} (h : Machine.run step (init pRcvr pSdr chunk content buffer) es = some u) :
    Machine.Along step KeepsAcked (init pRcvr pSdr chunk content buffer : Upload F) es ↔
      Machine.Along step (fun u e ↦ ¬ u.LateTimeout e)
        (init pRcvr pSdr chunk content buffer : Upload F) es :=
  Machine.along_congr (P := fun _ ↦ True) (fun _ _ _ _ _ ↦ trivial)
    (fun _ _ _ _ hstep ↦ keepsAcked_iff hstep) h trivial

/-! ## The first timeout, late -/

/-- The first packet, sent and stored. -/
def firstStored (content : ChunkData) : List Event :=
  [.begin, .iterate, .deliverData (dataPacket content 0)]

/-- After that its acknowledgment is on the way and its timeout is pending. -/
theorem run_firstStored (pRcvr pSdr : PeerRef) (chunk : ChunkRef) (content buffer : ChunkData) :
    ∃ u : Upload F,
      Machine.run step (init pRcvr pSdr chunk content buffer) (firstStored content) = some u ∧
      u.sending.pooled = true ∧ u.sdr.lastAcked = 0 ∧ u.sdr.lastSent = 1 ∧
      u.sdr.pktNum = dataPktNum ∧ u.sdr.timer.id = 0 ∧ 0 ∈ u.sending.timeouts ∧
      makeACK 1 ∈ u.acks := by
  have hnum : 0 < (chunk2pkts content).2 := by
    rw [chunk2pkts_snd]
    decide
  have hpkts : (chunk2pkts content).1[0]?.toList = [dataPacket content 0] := by
    rw [getElem?_chunk2pkts (by decide)]
    rfl
  let u₀ : Upload F := init pRcvr pSdr chunk content buffer
  have hbegin : u₀.step .begin = some { u₀ with sending := u₀.sending.beginThread } := step_begin rfl
  have hiter : u₀.sending.beginThread.iterate = _ :=
    Sending.iterate_first ⟨Nat.one_pos, hnum⟩ rfl hnum
  have hsend := step_iterate (u := { u₀ with sending := u₀.sending.beginThread }) rfl
  rw [hiter] at hsend
  obtain ⟨stored, hproc, -⟩ := Receiving.processDATA_first content pSdr chunk buffer
  refine ⟨_, Machine.run_cons_eq_some.mpr ⟨_, hbegin, Machine.run_cons_eq_some.mpr ⟨_, hsend,
    Machine.run_single (step_deliverData ?_ hproc)⟩⟩, rfl, rfl, rfl, chunk2pkts_snd content, rfl,
    List.mem_cons_self .., List.mem_cons_self ..⟩
  exact hpkts ▸ List.mem_cons_self ..

/-- The first packet, sent, stored and acknowledged. -/
def firstAcked (content : ChunkData) : List Event :=
  [.begin, .iterate, .deliverData (dataPacket content 0), .deliverAck (makeACK 1)]

/-- After that the timer still shows packet 0 and its timeout is pending. -/
theorem run_firstAcked (pRcvr pSdr : PeerRef) (chunk : ChunkRef) (content buffer : ChunkData) :
    ∃ u : Upload F,
      Machine.run step (init pRcvr pSdr chunk content buffer) (firstAcked content) = some u ∧
      u.sdr.lastAcked = 1 ∧ u.sdr.timer.id = 0 ∧ 0 ∈ u.sending.timeouts := by
  obtain ⟨u, hrun, hpooled, hacked, -, hnum, hid, hpending, hack⟩ :=
    run_firstStored (F := F) pRcvr pSdr chunk content buffer
  have hnew : u.sending.processACK 1 = { u.sending with sdr := (u.sdr.advance 1).stopTimer } := by
    refine Sending.processACK_new hpooled ?_ ?_
    · rw [show u.sending.sdr.pktNum = _ from hnum]
      decide
    · rw [show u.sending.sdr.lastAcked = _ from hacked]
      exact Nat.zero_lt_one
  refine ⟨_, Machine.run_trans hrun (Machine.run_single (step_deliverAck hack)), ?_, ?_, ?_⟩
  · show (u.sending.processACK 1).sdr.lastAcked = 1
    rw [hnew]
    rfl
  · show (u.sending.processACK 1).sdr.timer.id = 0
    rw [hnew]
    exact hid
  · show 0 ∈ (u.sending.processACK 1).timeouts
    rw [hnew]
    exact hpending

/-- The run that ends there keeps what was acknowledged. -/
theorem run_keeps_acked_iff_first :
    Machine.Along step KeepsAcked (init 0 1 0 (.fill 0) (.fill 0) : Upload ℚ) (firstAcked (.fill 0)) ↔
      Machine.Along step (fun u e ↦ ¬ u.LateTimeout e)
        (init 0 1 0 (.fill 0) (.fill 0) : Upload ℚ) (firstAcked (.fill 0)) := by
  obtain ⟨u, hrun, -⟩ := run_firstAcked (F := ℚ) 0 1 0 (.fill 0) (.fill 0)
  exact run_keeps_acked_iff hrun

/-- So the run with that timeout takes the acknowledgment of packet 1 back. -/
theorem not_keeps_acked_firstAcked :
    ¬ Machine.Along step KeepsAcked (init 0 1 0 (.fill 0) (.fill 0) : Upload ℚ)
      (firstAcked (.fill 0) ++ [.timeout 0]) := by
  intro h
  obtain ⟨u, hrun, hacked, hid, hpending⟩ := run_firstAcked (F := ℚ) 0 1 0 (.fill 0) (.fill 0)
  have hstep := step_timeout hpending
  have hkeeps := (Machine.along_append hrun).mp h |>.2.1
  have hle := (hkeeps _ hstep).1
  rw [hacked] at hle
  have hback : (u.sending.timeout 0).sdr.lastAcked = 0 :=
    congrArg Sender.lastAcked (Sending.sdr_timeout hid)
  exact absurd (hle.trans (Nat.le_of_eq hback)) (Nat.not_succ_le_zero 0)

end Upload

end BitTorrent
