import BitTorrent.Peer.Pools
import BitTorrent.Upload.Independence

/-!
# Which peers have an upload

`process_GET` and `process_ACK` ask `get_sender` for the upload to a peer.  What each step
of a serving peer does to the answer, for the peer the step is for and for the others.
-/

namespace BitTorrent

namespace Server

set_option linter.unusedSectionVars false

variable {F : Type} [NatCast F] [Add F] [Div F] [LE F] [DecidableLE F] [TruncU32 F]
  {srv srv' : Server F} {p q : PeerRef} {i j : SenderRef} {pkt : Packet}

/-- An upload to the peer is in the pool. -/
def HasUpload (srv : Server F) (p : PeerRef) : Prop := srv.getSender (some p) ≠ none

/-- The peer an upload in the pool is for. -/
def openFor (srv : Server F) (i : SenderRef) : Option PeerRef :=
  (srv.upload i).bind fun s ↦ if s.pooled then s.sdr.pReceiver else none

theorem openFor_eq_some_iff :
    srv.openFor i = some p ↔
      ∃ s, srv.upload i = some s ∧ s.pooled = true ∧ s.sdr.pReceiver = some p := by
  rw [openFor, Option.bind_eq_some_iff]
  simp only [Option.ite_none_right_eq_some]

/-- `get_sender` finds the upload that is open for the peer. -/
theorem Ok.getSender_iff_openFor (h : srv.Ok) :
    srv.getSender (some p) = some i ↔ srv.openFor i = some p := by
  rw [h.getSender_eq_some_iff, openFor_eq_some_iff]

theorem Ok.hasUpload_iff (h : srv.Ok) : srv.HasUpload p ↔ ∃ i, srv.openFor i = some p := by
  rw [HasUpload, Option.ne_none_iff_exists']
  simp only [h.getSender_iff_openFor]

/-- The same uploads are open. -/
theorem Ok.hasUpload_congr (h : srv.Ok) (h' : srv'.Ok) (hopen : srv'.openFor = srv.openFor) :
    srv'.HasUpload p ↔ srv.HasUpload p := by
  rw [h.hasUpload_iff, h'.hasUpload_iff, hopen]

/-- At most the upload to one peer is closed. -/
theorem Ok.hasUpload_close (h : srv.Ok) (h' : srv'.Ok) {closes : Prop} [Decidable closes]
    (hopen : ∀ j, srv'.openFor j =
      if srv.getSender (some p) = some j ∧ closes then none else srv.openFor j) :
    srv'.HasUpload q ↔ srv.HasUpload q ∧ ¬ (q = p ∧ closes) := by
  rw [h.hasUpload_iff, h'.hasUpload_iff]
  simp only [hopen]
  constructor
  · rintro ⟨j, hj⟩
    split at hj
    · cases hj
    · next hnot =>
        refine ⟨⟨j, hj⟩, ?_⟩
        rintro ⟨rfl, hcloses⟩
        exact hnot ⟨h.getSender_iff_openFor.mpr hj, hcloses⟩
  · rintro ⟨⟨j, hj⟩, hnot⟩
    refine ⟨j, ?_⟩
    rw [if_neg, hj]
    rintro ⟨hget, hcloses⟩
    refine hnot ⟨?_, hcloses⟩
    rw [h.getSender_iff_openFor, hj] at hget
    exact Option.some.inj hget

/-! ## The steps of a serving peer -/

/-- The threads open and close nothing. -/
theorem Ok.hasUpload_thread (h : srv.Ok) {e : SendEvent} (he : ∀ n, e ≠ .ack n)
    (hstep : srv.thread i e = some srv') : srv'.HasUpload q ↔ srv.HasUpload q := by
  obtain ⟨hok, -, s, s', hs, hs', hupload⟩ := h.thread he hstep
  refine h.hasUpload_congr hok (funext fun j ↦ ?_)
  rw [openFor, openFor, hupload]
  split
  · next hij =>
      subst hij
      rw [hs, Option.bind_some, Option.bind_some, Sending.pooled_thread he hs',
        (Sending.step_frame hs').2.2]
  · rfl

/-- An ACK with this number ends the upload to the peer: it is the last one, and everything
was sent. -/
def Ends (srv : Server F) (p : PeerRef) (ackNum : Nat) : Prop :=
  ∃ i t, srv.getSender (some p) = some i ∧ srv.senders[i]? = some t ∧
    t.sdr.pktNum ≤ ackNum ∧ t.sdr.pktNum ≤ t.sdr.lastSent

/-- `process_ACK` closes the upload that the ACK ends. -/
theorem Ok.hasUpload_processACK (h : srv.Ok) (pkt : Packet) (p : PeerRef) :
    (srv.processACK pkt (some p)).HasUpload q ↔
      srv.HasUpload q ∧ ¬ (q = p ∧ srv.Ends p pkt.header.ackNum.toNat) := by
  classical
  obtain ⟨hok, -, hupload⟩ := h.processACK pkt p
  refine h.hasUpload_close hok fun j ↦ ?_
  rw [openFor, hupload]
  by_cases hget : srv.getSender (some p) = some j
  · obtain ⟨s, hs, hpooled, hpeer⟩ := h.getSender_eq_some_iff.mp hget
    have hsender := (upload_eq_some_iff.mp hs).1
    have hafter := Sending.processACK_of_pooled hpooled pkt.header.ackNum.toNat
    have hends : srv.Ends p pkt.header.ackNum.toNat ↔
        s.sdr.pktNum ≤ pkt.header.ackNum.toNat ∧ s.sdr.pktNum ≤ s.sdr.lastSent := by
      constructor
      · rintro ⟨i, t, hi, ht, hlast⟩
        rw [hget, Option.some.injEq] at hi
        subst hi
        rw [hsender, Option.some.injEq] at ht
        rw [ht]
        exact hlast
      · exact fun hlast ↦ ⟨j, _, hget, hsender, hlast⟩
    rw [if_pos hget, hs, Option.map_some, Option.bind_some, openFor, hs, Option.bind_some, hafter]
    simp only [hget, true_and, hends, hpooled, if_true]
    rcases s.sdr.processACK_cases pkt.header.ackNum.toNat with
      ⟨hout, hnum, hsent, -⟩ | ⟨hin, hrest, -⟩
    · rw [hout, Bool.not_true, if_neg Bool.false_ne_true, if_pos ⟨hnum, hsent⟩]
    · have hnot : ¬ (s.sdr.pktNum ≤ pkt.header.ackNum.toNat ∧ s.sdr.pktNum ≤ s.sdr.lastSent) :=
        fun hlast ↦ absurd (hrest hlast.1) (Nat.not_lt.mpr hlast.2)
      rw [hin, Bool.not_false, if_pos rfl, if_neg hnot]
      exact Sender.pReceiver_processACK _ _
  · rw [if_neg hget, if_neg (fun hc ↦ hget hc.1)]
    rfl

/-- `process_GET` first closes an upload to the same peer that is fully sent. -/
theorem Ok.hasUpload_dropSent (h : srv.Ok) (p : PeerRef) :
    (srv.dropSent (some p)).Ok ∧
      ∀ q, q ≠ p → ((srv.dropSent (some p)).HasUpload q ↔ srv.HasUpload q) := by
  rw [dropSent]
  cases hget : srv.getSender (some p) with
  | none => exact ⟨h, fun _ _ ↦ Iff.rfl⟩
  | some i =>
      obtain ⟨s, hs, hpooled, hpeer⟩ := h.getSender_eq_some_iff.mp hget
      simp only [Option.bind_some, (upload_eq_some_iff.mp hs).1, Option.map_some]
      split
      · obtain ⟨hok, hupload⟩ := h.removeSender (t := s.toSenderThread) hget hpeer
        have hopen : ∀ j, (srv.removeSender i s.toSenderThread).openFor j =
            if srv.getSender (some p) = some j ∧ True then none else srv.openFor j := by
          intro j
          simp only [and_true, hget, Option.some.injEq]
          rw [openFor, hupload]
          split
          · rfl
          · rfl
        refine ⟨hok, fun q hq ↦ (h.hasUpload_close hok hopen).trans ?_⟩
        exact and_iff_left fun hc ↦ hq hc.1
      · exact ⟨h, fun _ _ ↦ Iff.rfl⟩

/-- A new upload is open for its peer. -/
theorem Ok.hasUpload_addSender (h : srv.Ok) {pkts : List Packet} {num : Nat}
    (hfree : srv.getSender (some p) = none) (hadd : srv.addSender (some p) pkts num = some srv') :
    srv'.HasUpload q ↔ q = p ∨ srv.HasUpload q := by
  obtain ⟨hok, -, hupload⟩ := h.addSender hfree hadd
  have hlast : srv.openFor srv.senders.length = none := by
    rw [openFor, upload, List.getElem?_eq_none (Nat.le_refl _)]
    rfl
  rw [h.hasUpload_iff, hok.hasUpload_iff]
  constructor
  · rintro ⟨j, hj⟩
    rw [openFor, hupload] at hj
    split at hj
    · cases hj
      exact .inl rfl
    · exact .inr ⟨j, hj⟩
  · rintro (rfl | ⟨j, hj⟩)
    · refine ⟨srv.senders.length, ?_⟩
      rw [openFor, hupload, if_pos rfl]
      rfl
    · have hne : srv.senders.length ≠ j := by
        rintro rfl
        rw [hlast] at hj
        cases hj
      refine ⟨j, ?_⟩
      rw [openFor, hupload, if_neg hne]
      exact hj

/-- After `process_GET` its peer has an upload unless it was denied, and the other peers
have theirs. -/
theorem Ok.hasUpload_processGET (h : srv.Ok) {getDataChunk : List UInt8 → Option ChunkData}
    {sent : List (PeerRef × Packet)}
    (hr : srv.processGETChecked getDataChunk pkt (some p) = some (srv', sent)) :
    srv'.Ok ∧ (srv'.HasUpload p ↔ ¬ srv.Denies p) ∧
      (q ≠ p → (srv'.HasUpload q ↔ srv.HasUpload q)) := by
  rw [h.processGETChecked_eq] at hr
  obtain ⟨hdrop, hothers⟩ := h.hasUpload_dropSent p
  by_cases hfree : (srv.dropSent (some p)).getSender (some p) = none
  · rw [if_pos hfree] at hr
    rcases openUpload_cases hr with ⟨hfull, hpair⟩ | ⟨hroom, -, _, _, hadd⟩
    · cases hpair
      refine ⟨hdrop, ?_, hothers q⟩
      exact iff_of_false (fun hc ↦ hc hfree) fun hc ↦ hc ⟨hfree, hfull⟩
    · have hiff := fun q ↦ hdrop.hasUpload_addSender (q := q) hfree hadd
      refine ⟨(hdrop.addSender hfree hadd).1, ?_, ?_⟩
      · exact iff_of_true ((hiff p).mpr (.inl rfl)) fun hc ↦ Int.not_le.mpr hroom hc.2
      · intro hq
        rw [hiff q, hothers q hq]
        exact or_iff_right hq
  · rw [if_neg hfree] at hr
    cases hr
    have hkept : srv.HasUpload p := by
      intro hnone
      rw [dropSent, hnone] at hfree
      exact hfree hnone
    exact ⟨h, iff_of_true hkept fun hc ↦ hfree hc.1, fun _ ↦ Iff.rfl⟩

end Server

end BitTorrent
