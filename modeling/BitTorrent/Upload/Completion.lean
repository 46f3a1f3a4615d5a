import BitTorrent.Upload.Progress

/-!
# The end of an upload

A receiver that has its chunk forgets the transfer and answers nothing any more,
so the one final ACK it sent is all that can end the upload.  The sender ignores
it while its window is rolled back, and once it is gone the sender stays in the
pool for good.

The final ACK itself is not accounted for in `last_acked`, so the thread of an
upload that did end never sees its exit test true and goes on sending.
-/

namespace BitTorrent

set_option linter.unusedSectionVars false

variable {F : Type} [NatCast F] [Add F] [Div F] [LE F] [DecidableLE F] [TruncU32 F]

/-! ## The sender on its own -/

namespace Sending

/-- The sender acts on its own, or on an acknowledgment with one of the given
numbers. -/
def FedBy (ns : List Nat) : SendEvent → Prop
  | .ack n => n ∈ ns
  | _ => True

/-- The sender has sent the whole chunk, or can, given acknowledgments with these
numbers only. -/
def CanSendAll (ns : List Nat) (s : Sending F) : Prop :=
  ∃ s', Machine.ReachesBy step (FedBy ns) s s' ∧ s'.sdr.pktNum ≤ s'.sdr.lastSent

variable {s s' : Sending F} {ns : List Nat}

/-- A final ACK takes a sender that has sent everything out of the pool. -/
theorem processACK_final {n : Nat} (hn : s.sdr.pktNum ≤ n) (hsent : s.sdr.pktNum ≤ s.sdr.lastSent) :
    (s.processACK n).pooled = false := by
  rw [processACK]
  split
  · rw [Sender.processACK, if_pos hn, if_neg (Nat.not_lt_of_le hsent)]
    rfl
  · next hout => exact Bool.eq_false_of_not_eq_true hout

/-- A running thread whose window reaches the end sends all of the chunk. -/
theorem canSendAll_of_looping (hr : s.sdr.Ranges) (hphase : s.phase = .looping)
    (hav : s.sdr.pktNum ≤ s.sdr.lastAvailable) : s.CanSendAll ns := by
  obtain ⟨k, hk⟩ := Nat.exists_eq_add_of_le hr.sent_le
  induction k generalizing s with
  | zero => exact ⟨s, .refl s, Nat.le_of_eq hk⟩
  | succ k ih =>
      have hlt : s.sdr.lastSent < s.sdr.pktNum := by
        rw [hk]
        exact Nat.lt_add_of_pos_right k.succ_pos
      have hcan : s.CanSend := ⟨hlt.trans_le hav, hlt⟩
      have hstep : s.step .iterate = some s.iterate.1 := if_pos hphase
      have hr' := ranges_step hr hstep
      have hsent : s.iterate.1.sdr = { s.iterate.1.sdr with lastSent := s.sdr.lastSent + 1 } ∧
          s.iterate.1.phase = .looping ∧ s.iterate.1.sdr.pktNum = s.sdr.pktNum ∧
          s.iterate.1.sdr.lastAvailable = s.sdr.lastAvailable := by
        by_cases hfirst : s.sdr.lastSent = s.sdr.lastAcked
        · rw [iterate_first hcan hfirst hr.acked_lt]
          exact ⟨rfl, hphase, rfl, rfl⟩
        · rw [iterate_next hcan hfirst hr.acked_lt]
          exact ⟨rfl, hphase, rfl, rfl⟩
      obtain ⟨hlast, hphase', hnum, hav'⟩ := hsent
      obtain ⟨s', hreach, hall⟩ := ih hr' hphase' (by rw [hnum, hav']; exact hav)
        (by rw [hnum, hlast]; show _ = s.sdr.lastSent + 1 + k; omega)
      exact ⟨s', .head (show FedBy ns .iterate from trivial) hstep hreach, hall⟩

/-- So does any thread that has not returned. -/
theorem canSendAll_of_available (hr : s.sdr.Ranges) (hphase : s.phase ≠ .returned)
    (hav : s.sdr.pktNum ≤ s.sdr.lastAvailable) : s.CanSendAll ns := by
  cases hp : s.phase with
  | returned => exact absurd hp hphase
  | looping => exact canSendAll_of_looping hr hp hav
  | created =>
      have hstep : s.step .begin = some s.beginThread := if_pos hp
      have hbegun : s.beginThread.CanSendAll ns :=
        canSendAll_of_looping (ranges_step hr hstep) rfl hav
      obtain ⟨s', hreach, hall⟩ := hbegun
      exact ⟨s', .head (show FedBy ns .begin from trivial) hstep hreach, hall⟩

end Sending

namespace Upload

variable {u u' : Upload F}

/-- The numbers of the acknowledgments in flight. -/
def ackNums (u : Upload F) : List Nat := u.acks.map fun p ↦ p.header.ackNum.toNat

/-- Some continuation without further loss has `process_ACK` remove the sender. -/
def Removable (u : Upload F) : Prop :=
  ∃ u', Machine.ReachesBy step NoLoss u u' ∧ u'.sending.pooled = false

/-- A final ACK is in flight. -/
def FinalAck (u : Upload F) : Prop := ∃ n ∈ u.ackNums, u.sdr.pktNum ≤ n

/-- The invariant of an upload, and its thread, which never returns. -/
theorem running_of_reaches {pRcvr pSdr : PeerRef} {chunk : ChunkRef} {content buffer : ChunkData}
    (h : Machine.Reaches step (init pRcvr pSdr chunk content buffer) u) :
    u.Safe content ∧ u.sending.phase ≠ .returned := by
  refine h.invariant (P := fun u ↦ u.Safe content ∧ u.sending.phase ≠ .returned) ?_
    ⟨safe_init pRcvr pSdr chunk content buffer, fun hc ↦ by cases hc⟩
  rintro u e u' ⟨hsafe, hrunning⟩ hstep
  refine ⟨hsafe.step hstep, ?_⟩
  cases step_cases hstep with
  | begins hs | sends hs | expires hs | acked _ hs =>
      exact Sending.running_step hsafe.ranges hrunning hs
  | arrives | network => exact hrunning

/-! ## A closed receiver -/

/-- What a closed receiver leaves to the rest of the run: no new acknowledgment. -/
structure ClosedSince (u v : Upload F) : Prop where
  closed : v.receiving.opened = false
  acks_subset : v.acks ⊆ u.acks
  sending : Machine.ReachesBy Sending.step (Sending.FedBy u.ackNums) u.sending v.sending

/-- Once the receiver is closed, acknowledgments only disappear, and the sender
is driven by those there are. -/
theorem ClosedSince.step {v v' : Upload F} {e : Event} (h : u.ClosedSince v)
    (hstep : v.step e = some v') : u.ClosedSince v' := by
  cases step_cases hstep with
  | begins hs | sends hs | expires hs =>
      exact ⟨h.closed, h.acks_subset, h.sending.trans (.single (by exact trivial) hs)⟩
  | arrives hp hr =>
      rw [Receiving.processDATA_of_closed h.closed, Option.some.injEq] at hr
      cases hr
      exact ⟨h.closed, h.acks_subset, h.sending⟩
  | acked hp hs =>
      refine ⟨h.closed, fun q hq ↦ h.acks_subset (List.mem_of_mem_erase hq),
        h.sending.trans (.single (e := .ack _) ?_ hs)⟩
      exact List.mem_map_of_mem (h.acks_subset hp)
  | network _ hacks => exact ⟨h.closed, fun q hq ↦ h.acks_subset (hacks hq), h.sending⟩

/-- An upload that is over was ended by a final ACK that was in flight when its
receiver closed, and the sender could send everything. -/
theorem finalAck_of_removed {v : Upload F} (hclosed : u.receiving.opened = false)
    (hpooled : u.sending.pooled = true) (h : Machine.Reaches step u v)
    (hout : v.sending.pooled = false) :
    u.FinalAck ∧ u.sending.CanSendAll u.ackNums := by
  have hinv : u.ClosedSince v ∧
      (v.sending.pooled = false → u.FinalAck ∧ u.sending.CanSendAll u.ackNums) := by
    refine h.invariant (P := fun v ↦ u.ClosedSince v ∧
      (v.sending.pooled = false → u.FinalAck ∧ u.sending.CanSendAll u.ackNums)) ?_
      ⟨⟨hclosed, List.Subset.refl _, .refl _⟩, fun hc ↦ absurd hpooled (by simp [hc])⟩
    rintro w e w' ⟨hw, hend⟩ hstep
    refine ⟨hw.step hstep, fun hout ↦ ?_⟩
    by_cases hin : w.sending.pooled = true
    · -- this is the step that removes the sender
      obtain ⟨p, hp, -, hfinal, hsent⟩ := removed_step hstep hin hout
      have hframe : w.sdr.pktNum = u.sdr.pktNum :=
        hw.sending.reaches.invariant (P := fun s ↦ s.sdr.pktNum = u.sdr.pktNum)
          (fun _ _ _ hs hstep ↦ (Sending.step_frame hstep).2.1.trans hs) rfl
      refine ⟨⟨_, List.mem_map_of_mem (hw.acks_subset hp), hframe ▸ hfinal⟩, _, hw.sending, hsent⟩
    · exact hend (Bool.eq_false_of_not_eq_true hin)
  exact hinv.2 hout

/-! ## Feeding the sender -/

/-- What the sender does with the acknowledgments in flight can happen in the
upload without using them up: each is duplicated before it is delivered. -/
theorem reaches_of_fed {s : Sending F}
    (h : Machine.ReachesBy Sending.step (Sending.FedBy u.ackNums) u.sending s) :
    ∃ v, Machine.ReachesBy step NoLoss u v ∧ v.sending = s ∧ v.acks = u.acks := by
  obtain ⟨es, hes, hrun⟩ := h
  induction es generalizing u with
  | nil =>
      cases hrun
      exact ⟨u, .refl u, rfl, rfl⟩
  | cons e es ih =>
      obtain ⟨t, ht, hrest⟩ := Machine.run_cons_eq_some.mp hrun
      have hstep : ∃ v, Machine.ReachesBy step NoLoss u v ∧ v.sending = t ∧ v.acks = u.acks := by
        cases e with
        | begin =>
            refine ⟨{ u with sending := t }, .single (show NoLoss .begin from id) ?_, rfl, rfl⟩
            rw [step, ht]
            rfl
        | timeout id =>
            refine ⟨{ u with sending := t }, .single (show NoLoss (.timeout id) from fun h ↦ h) ?_,
              rfl, rfl⟩
            rw [step, ht]
            rfl
        | iterate =>
            have hiter : u.step .iterate = _ := congrArg (Option.map _) ht
            exact ⟨_, .single (show NoLoss .iterate from id) hiter, rfl, rfl⟩
        | ack n =>
            obtain ⟨p, hp, rfl⟩ := List.mem_map.mp (hes _ (List.mem_cons_self ..))
            have hdup : u.step (.duplicateAck p) = some { u with acks := p :: u.acks } := if_pos hp
            have hack : ({ u with acks := p :: u.acks } : Upload F).step (.deliverAck p) = _ :=
              step_deliverAck (List.mem_cons_self ..)
            refine ⟨_, .head (show NoLoss (.duplicateAck p) from id) hdup
              (.single (show NoLoss (.deliverAck p) from id) hack), ?_, List.erase_cons_head ..⟩
            exact Option.some.inj ht
      obtain ⟨v, hreach, rfl, hacks⟩ := hstep
      have hnums : v.ackNums = u.ackNums := by rw [ackNums, hacks, ackNums]
      obtain ⟨w, hreach', hsending, hacks'⟩ :=
        ih (fun e he ↦ hnums ▸ hes e (List.mem_cons_of_mem _ he)) hrest
      exact ⟨w, hreach.trans hreach', hsending, hacks'.trans hacks⟩

/-- With a final ACK in flight and a sender that can send everything, the upload
can end. -/
theorem removable_of_finalAck (hfinal : u.FinalAck) (hall : u.sending.CanSendAll u.ackNums) :
    u.Removable := by
  obtain ⟨n, hmem, hn⟩ := hfinal
  obtain ⟨p, hp, rfl⟩ := List.mem_map.mp hmem
  obtain ⟨s, hs, hsent⟩ := hall
  have hframe : s.sdr.pktNum = u.sdr.pktNum :=
    hs.reaches.invariant (P := fun s ↦ s.sdr.pktNum = u.sdr.pktNum)
      (fun _ _ _ hs hstep ↦ (Sending.step_frame hstep).2.1.trans hs) rfl
  obtain ⟨v, hreach, rfl, hacks⟩ := reaches_of_fed hs
  have hack := step_deliverAck (u := v) (hacks ▸ hp)
  refine ⟨_, hreach.trans (.single (show NoLoss (.deliverAck p) from id) hack), ?_⟩
  exact Sending.processACK_final (hframe ▸ hn) hsent

/-- In every reachable state the sender's thread is still there, and whether the
upload can end depends on its final ACK and its window: if the receiver has
completed, `process_ACK` can remove the sender exactly when a final ACK is in
flight and the sender can have sent everything, which it can when its window
reaches the end of the chunk. -/
theorem removable_iff {pRcvr pSdr : PeerRef} {chunk : ChunkRef} {content buffer : ChunkData}
    (h : Machine.Reaches step (init pRcvr pSdr chunk content buffer) u)
    (hdone : u.rcvr.lastRcvd = u.sdr.pktNum) (hpooled : u.sending.pooled = true) :
    (u.Removable ↔ u.FinalAck ∧ u.sending.CanSendAll u.ackNums) ∧
      (u.sdr.pktNum ≤ u.sdr.lastAvailable → u.sending.CanSendAll u.ackNums) := by
  obtain ⟨hsafe, hrunning⟩ := running_of_reaches h
  have hclosed : u.receiving.opened = false := by
    rw [← Bool.not_eq_true, hsafe.receiving.opened_iff, ← hsafe.num_eq]
    exact Nat.not_lt_of_le (Nat.le_of_eq hdone.symm)
  refine ⟨⟨?_, ?_⟩, Sending.canSendAll_of_available hsafe.ranges hrunning⟩
  · rintro ⟨v, hreach, hout⟩
    exact finalAck_of_removed hclosed hpooled hreach.reaches hout
  · rintro ⟨hfinal, hall⟩
    exact removable_of_finalAck hfinal hall

/-! ## A lost final ACK -/

/-- The network may lose every acknowledgment in flight. -/
theorem reaches_no_acks (u : Upload F) : Machine.Reaches step u { u with acks := [] } := by
  obtain ⟨acks, hacks⟩ : ∃ acks, u.acks = acks := ⟨_, rfl⟩
  induction acks generalizing u with
  | nil =>
      rw [← hacks]
      exact .refl u
  | cons p acks ih =>
      have hlose : u.step (.loseAck p) = some { u with acks := acks } := by
        have hmem : p ∈ u.acks := hacks ▸ List.mem_cons_self ..
        rw [step, if_pos hmem, hacks, List.erase_cons_head]
      exact (Machine.Reaches.single hlose).trans (ih { u with acks := acks } rfl)

/-- A transfer can run to where its receiver completes. -/
theorem reaches_completed (content buffer : ChunkData) :
    ∃ u : Upload ℚ, Machine.Reaches step (init 0 1 0 content buffer) u ∧ u.FrontStored content ∧
      u.rcvr.lastRcvd = dataPktNum := by
  obtain ⟨u, hreach, hstored, hrcvd⟩ :=
    (live_init 0 1 0 content buffer).progress_to (show 0 < dataPktNum by decide) (Nat.le_refl _)
  exact ⟨u, hreach.reaches, hstored, hrcvd⟩

/-- The upload that has just completed can end. -/
theorem removable_iff_completed :
    ∃ u : Upload ℚ, Machine.Reaches step (init 0 1 0 (.fill 0) (.fill 0)) u ∧
      (u.Removable ↔ u.FinalAck ∧ u.sending.CanSendAll u.ackNums) := by
  obtain ⟨u, hreach, hstored, hrcvd⟩ := reaches_completed (.fill 0) (.fill 0)
  exact ⟨u, hreach, (removable_iff hreach (hrcvd.trans hstored.live.safe.num_eq.symm)
    hstored.pooled).1⟩

/-- With its final ACK lost it cannot. -/
theorem not_removable_lost_ack :
    ¬ ∀ u : Upload ℚ, Machine.Reaches step (init 0 1 0 (.fill 0) (.fill 0)) u →
      u.rcvr.lastRcvd = u.sdr.pktNum → u.sending.pooled = true → u.Removable := by
  intro h
  obtain ⟨u, hreach, hstored, hrcvd⟩ := reaches_completed (.fill 0) (.fill 0)
  have hdone : u.rcvr.lastRcvd = u.sdr.pktNum := hrcvd.trans hstored.live.safe.num_eq.symm
  obtain ⟨v, hv, hout⟩ := h _ (hreach.trans (reaches_no_acks u)) hdone hstored.pooled
  have hclosed : u.receiving.opened = false := by
    rw [← Bool.not_eq_true, hstored.live.safe.receiving.opened_iff]
    exact Nat.not_lt_of_le (Nat.le_of_eq hrcvd.symm)
  obtain ⟨⟨n, hn, -⟩, -⟩ := finalAck_of_removed (u := { u with acks := [] }) hclosed
    hstored.pooled hv.reaches hout
  exact absurd hn List.not_mem_nil

/-! ## After the end -/

/-- No step of the run sends another DATA packet. -/
def NoMoreData (u : Upload F) : Prop := ∀ u', Machine.Reaches step u u' → u'.sent = u.sent

/-- The upload is closed: its thread sees its exit test true, and nothing sends. -/
def Closed (u : Upload F) : Prop := u.sending.Done ∧ u.NoMoreData

/-- A sender always gets to send again, in the pool or not. -/
theorem Live.not_noMoreData {content : ChunkData} {u : Upload ℚ} (h : u.Live content) :
    ¬ u.NoMoreData := by
  intro hno
  obtain ⟨v, hreach, hlive, hphase, hle, -⟩ := h.rewind
  have hcan : v.sending.CanSend := ⟨Nat.lt_of_le_of_lt hle hlive.window.acked_lt_available,
    Nat.lt_of_le_of_lt hle hlive.safe.ranges.acked_lt⟩
  have hpkt : v.sending.iterate.2 = [dataPacket content v.sdr.lastSent] := by
    have hlt : v.sdr.lastSent < dataPktNum := hlive.safe.num_eq ▸ hcan.2
    rw [Sending.packets_of_canSend hcan, show v.sending.sdr.pkts = _ from hlive.safe.pkts_eq,
      getElem?_chunk2pkts hlt]
    rfl
  have hstep := step_iterate hphase
  have hsame := hno _ (hreach.reaches.trans (.single hstep))
  rw [← hno _ hreach.reaches, hpkt] at hsame
  exact absurd (congrArg List.length hsame) (by simp)

/-- An upload that ended is never closed.  Whatever the arithmetic of `cwnd`, the exit
test of its thread is false; and with exact rationals it always gets to send again. -/
theorem removed_never_closed {pRcvr pSdr : PeerRef} {chunk : ChunkRef} {content buffer : ChunkData} :
    (∀ u : Upload F, Machine.Reaches step (init pRcvr pSdr chunk content buffer) u →
      u.sending.pooled = false → ¬ u.sending.Done ∧ ¬ u.Closed) ∧
    ∀ u : Upload ℚ, Machine.Reaches step (init pRcvr pSdr chunk content buffer) u →
      u.sending.pooled = false → ¬ u.NoMoreData := by
  constructor
  · intro u h _
    have hdone : ¬ u.sending.Done := Nat.not_le_of_lt (safe_of_reaches h).ranges.acked_lt
    exact ⟨hdone, fun hc ↦ hdone hc.1⟩
  · intro u h _
    exact ((live_init pRcvr pSdr chunk content buffer).reaches h).not_noMoreData

/-- A transfer can run to its end and its upload be removed. -/
theorem reaches_removed (content buffer : ChunkData) :
    ∃ u : Upload ℚ, Machine.Reaches step (init 0 1 0 content buffer) u ∧
      u.sending.pooled = false := by
  obtain ⟨u, hreach, hstored, hrcvd⟩ := reaches_completed content buffer
  refine ⟨_, hreach.trans (.single (step_deliverAck hstored.inFlight)), ?_⟩
  have hnum : u.sending.sdr.pktNum = dataPktNum := hstored.live.safe.num_eq
  refine Sending.processACK_final ?_ ?_
  · rw [ackNum_toNat_makeACK (Nat.le_of_eq hrcvd), hrcvd, hnum]
  · rw [show u.sending.sdr.lastSent = _ from hstored.sent, hrcvd, hnum]

/-- And it is then not closed. -/
theorem removed_never_closed_run :
    ∃ u : Upload ℚ, Machine.Reaches step (init 0 1 0 (.fill 0) (.fill 0)) u ∧
      u.sending.pooled = false ∧ ¬ u.Closed ∧ ¬ u.NoMoreData := by
  obtain ⟨u, hreach, hout⟩ := reaches_removed (.fill 0) (.fill 0)
  obtain ⟨hclosed, hsends⟩ := removed_never_closed (F := ℚ)
  exact ⟨u, hreach, hout, (hclosed u hreach hout).2, hsends u hreach hout⟩

/-- So not every upload that ends is closed. -/
theorem not_closed_after_removal :
    ¬ ∀ u : Upload ℚ, Machine.Reaches step (init 0 1 0 (.fill 0) (.fill 0)) u →
      u.sending.pooled = false → u.Closed := by
  intro h
  obtain ⟨u, hreach, hout⟩ := reaches_removed (.fill 0) (.fill 0)
  exact absurd (h u hreach hout).1 (Nat.not_le_of_lt (safe_of_reaches hreach).ranges.acked_lt)

end Upload

end BitTorrent
