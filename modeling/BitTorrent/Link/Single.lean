import BitTorrent.Link.System
import BitTorrent.Upload.Safety

/-!
# One transfer of two peers

A GET that finds a free place opens an upload, and from then on the handlers of the
two peers can do whatever the closed system of one sender and one receiver can:
each of its runs is a run of the two peers.  Other packets may be in flight
meanwhile, and stay there.
-/

namespace BitTorrent

variable {F : Type} [NatCast F] [Add F] [Div F] [LE F] [DecidableLE F] [TruncU32 F]

/-- Taking a packet, a receiver stays with its chunk. -/
theorem Receiving.chunk_processDATA {r r' : Receiving} {pkt : Packet} {replies : List Packet}
    (h : r.processDATA pkt = some (r', replies)) : r'.rcvr.chunk = r.rcvr.chunk := by
  rw [Receiving.processDATA] at h
  split at h
  · obtain ⟨⟨rcvr, data⟩, hstore, heq⟩ := Option.map_eq_some_iff.mp h
    cases heq
    exact (Receiver.store_frame hstore).2
  · cases h
    rfl

namespace Link

set_option linter.unusedSectionVars false

variable {π : Ends} {l₀ l l' : Link F} {u u' : Upload F} {i : SenderRef} {chunk : ChunkRef}
  {spare : List (SenderRef × Packet)}

/-- Upload `i` and the receiver for the serving peer are the two ends of `u`, and the
packets in flight are those of `u` and some spare ones.  Nothing else has changed
since `l₀`. -/
structure Carries (π : Ends) (l₀ : Link F) (i : SenderRef) (chunk : ChunkRef)
    (spare : List (SenderRef × Packet)) (u : Upload F) (l : Link F) : Prop where
  server : l.server.Ok
  upload : l.server.upload i = some u.sending
  peer : u.sending.sdr.pReceiver = some π.downloading
  alone : ∀ j, l.server.getSender (some π.downloading) = some j → j = i
  conn : l.client.Connection π.serving u.receiving
  frame : l₀.client.DeliveryFrame l.client π.serving chunk
  chunk : u.receiving.rcvr.chunk = chunk
  data : l.data = u.data.map (Prod.mk i) ++ spare
  acks : l.acks = u.acks.map (Prod.mk (l.requests.length - 1))
  requests : l.requests = l₀.requests
  answers : l.answers = l₀.answers

/-- A GET for the receiver just attached opens such an upload, if the serving peer has
none for this peer and room for one. -/
theorem carries_open {m : Nat × Packet} (hserver : l.server.Ok) (hclient : l.client.receiverPool.Ok)
    (hget : getReceiver l.client.receiverPool (some π.serving) = some (newReceiver π.serving chunk))
    (hdata : l.data = []) (hacks : l.acks = []) (hm : m ∈ l.gets)
    (hfree : l.server.getSender (some π.downloading) = none)
    (hroom : l.server.pool.curNum < l.server.pool.maxNum) :
    ∃ l', l.step π (.deliverGet m) = some l' ∧ l'.client = l.client ∧ l'.requests = l.requests ∧
      l'.answers l.server.senders.length = m.1 ∧
      Carries π l' l.server.senders.length chunk []
        (.init π.downloading π.serving chunk (π.content m.2) (l.client.chunks chunk).data) l' := by
  obtain ⟨pool, hpool⟩ : ∃ pool, l.server.pool.add l.server.senders.length = some pool :=
    ⟨_, if_neg (Int.not_le.mpr hroom)⟩
  have hadd : l.server.addSender (some π.downloading)
      (chunk2pkts (π.getDataChunk (m.2.data.take sha1HashSize))).1
      (chunk2pkts (π.getDataChunk (m.2.data.take sha1HashSize))).2 = some _ :=
    congrArg (Option.map _) hpool
  have hopen := Server.processGET_of_none π.getDataChunk m.2 hfree hadd
  obtain ⟨hok, -, hupload⟩ := hserver.addSender hfree hadd
  refine ⟨_, if_pos hm, rfl, rfl, Function.update_self .., ?_⟩
  rw [hopen]
  have hself := (hupload l.server.senders.length).trans (if_pos rfl)
  refine ⟨hok, hself, rfl, ?_, Client.connection_of_get hget, .refl hclient π.serving chunk, rfl,
    ?_, ?_, rfl, rfl⟩
  · intro j hj
    obtain ⟨s, hs, hpooled, hpeer⟩ := hok.getSender_eq_some_iff.mp hj
    rw [hupload] at hs
    split at hs
    · next heq => exact heq.symm
    · have hold := hserver.getSender_eq_some_iff.mpr ⟨s, hs, hpooled, hpeer⟩
      rw [hfree] at hold
      cases hold
  · show l.data = _
    rw [hdata]
    rfl
  · show l.acks = _
    rw [hacks]
    rfl

theorem Carries.mem_data (h : Carries π l₀ i chunk spare u l) {p : Packet} (hp : p ∈ u.data) :
    (i, p) ∈ l.data := by
  rw [h.data]
  exact List.mem_append_left _ (List.mem_map_of_mem hp)

theorem Carries.mem_acks (h : Carries π l₀ i chunk spare u l) {p : Packet} (hp : p ∈ u.acks) :
    (l.requests.length - 1, p) ∈ l.acks := by
  rw [h.acks]
  exact List.mem_map_of_mem hp

/-- A step of one of the upload's threads. -/
theorem Carries.thread (h : Carries π l₀ i chunk spare u l) {e : SendEvent} (he : ∀ n, e ≠ .ack n)
    {s : Sending F} (hs : u.sending.step e = some s) {data : List Packet}
    (hdata : data = l.sends π i e ++ u.data) {sent : List Nat} :
    ∃ l', l.step π (.thread i e) = some l' ∧
      Carries π l₀ i chunk spare { u with sending := s, data := data, sent := sent } l' := by
  have hthread : l.server.thread i e = some (l.server.setSender i s.toSenderThread) := by
    rw [Server.thread, h.upload, Option.bind_some, hs, Option.map_some]
  have hkeeps := h.server.keeps_thread he hthread
  obtain ⟨hok, -, t, t', ht, ht', hupload⟩ := h.server.thread he hthread
  rw [h.upload, Option.some.injEq] at ht
  subst ht
  rw [hs, Option.some.injEq] at ht'
  subst ht'
  have hl' : l.step π (.thread i e) = some
      { l with
        server := l.server.setSender i s.toSenderThread
        data := (l.sends π i e).map (fun pkt ↦ (i, pkt)) ++ l.data } := by
    cases e with
    | ack n => exact absurd rfl (he n)
    | _ => exact congrArg (Option.map _) hthread
  refine ⟨_, hl', ⟨hok, (hupload i).trans (if_pos rfl), (Sending.step_frame hs).2.2.trans h.peer,
    fun j hj ↦ h.alone j (hkeeps.pooled _ j hj), h.conn, h.frame, h.chunk, ?_, h.acks, h.requests,
    h.answers⟩⟩
  show (l.sends π i e).map (Prod.mk i) ++ l.data = data.map (Prod.mk i) ++ spare
  rw [hdata, List.map_append, h.data, List.append_assoc]

/-- The network makes the packets of the upload others among them. -/
theorem Carries.network (h : Carries π l₀ i chunk spare u l) {data acks : List Packet}
    (hdata : data ⊆ u.data) (hacks : acks ⊆ u.acks) :
    ∃ f l', l.step π f = some l' ∧
      Carries π l₀ i chunk spare { u with data := data, acks := acks } l' := by
  refine ⟨.network l.gets (data.map (Prod.mk i) ++ spare) (acks.map (Prod.mk (l.requests.length - 1))),
    _, if_pos ⟨List.Subset.refl _, ?_, ?_⟩, ⟨h.server, h.upload, h.peer, h.alone, h.conn, h.frame,
      h.chunk, rfl, rfl, h.requests, h.answers⟩⟩
  · rw [h.data]
    exact List.append_subset.mpr ⟨List.subset_append_of_subset_left _ (List.map_subset _ hdata),
      List.subset_append_right _ _⟩
  · rw [h.acks]
    exact List.map_subset _ hacks

/-- A packet in flight may stay behind as a duplicate. -/
theorem Carries.duplicate (h : Carries π l₀ i chunk spare u l) {p : Packet} (hp : p ∈ u.data) :
    ∃ f l', l.step π f = some l' ∧ Carries π l₀ i chunk ((i, p) :: spare) u l' := by
  refine ⟨.network l.gets (u.data.map (Prod.mk i) ++ (i, p) :: spare) l.acks, _,
    if_pos ⟨List.Subset.refl _, ?_, List.Subset.refl _⟩, ⟨h.server, h.upload, h.peer, h.alone, h.conn,
      h.frame, h.chunk, rfl, h.acks, h.requests, h.answers⟩⟩
  rw [h.data]
  refine List.append_subset.mpr ⟨List.subset_append_left _ _, ?_⟩
  exact List.cons_subset.mpr ⟨List.mem_append_left _ (List.mem_map_of_mem hp),
    List.subset_append_right _ _⟩

/-- Every step of the upload is a step of the two peers. -/
theorem Carries.step (h : Carries π l₀ i chunk spare u l) {e : Event} (hstep : u.step e = some u') :
    ∃ f l', l.step π f = some l' ∧ Carries π l₀ i chunk spare u' l' := by
  cases Upload.step_cases hstep with
  | begins hs =>
      obtain ⟨l', hl', hcarries⟩ := h.thread (e := .begin) (by rintro n ⟨⟩) hs rfl
      exact ⟨_, l', hl', hcarries⟩
  | sends hs =>
      have hsends : l.sends π i .iterate = u.sending.iterate.2 := by
        simp only [sends, h.upload]
        exact if_pos h.peer
      obtain ⟨l', hl', hcarries⟩ := h.thread (e := .iterate) (by rintro n ⟨⟩) hs (by rw [hsends])
      exact ⟨_, l', hl', hcarries⟩
  | expires hs =>
      obtain ⟨l', hl', hcarries⟩ := h.thread (e := .timeout _) (by rintro n ⟨⟩) hs rfl
      exact ⟨_, l', hl', hcarries⟩
  | @arrives p r replies hp hproc =>
      obtain ⟨c, hc, hconn, hframe, -⟩ := h.conn.processDATA π.shahash h.frame.pool hproc
      have hl' : l.step π (.deliverData (i, p)) = _ :=
        (if_pos (h.mem_data hp)).trans (congrArg (Option.map _) hc)
      refine ⟨_, _, hl', ⟨h.server, h.upload, h.peer, h.alone, hconn, h.frame.trans (h.chunk ▸ hframe),
        (Receiving.chunk_processDATA hproc).trans h.chunk, ?_, ?_, h.requests, h.answers⟩⟩
      · show l.data.erase (i, p) = (u.data.erase p).map (Prod.mk i) ++ spare
        rw [h.data, List.erase_append_left _ (List.mem_map_of_mem hp),
          List.map_erase (Prod.mk_right_injective i)]
      · show replies.map _ ++ l.acks = (replies ++ u.acks).map _
        rw [h.acks, List.map_append]
  | @acked p s hp hs =>
      rw [Sending.step, Option.some.injEq] at hs
      have hframe := Sending.step_frame (s := u.sending) (e := .ack p.header.ackNum.toNat) rfl
      have hkeeps := h.server.keeps_processACK p π.downloading
      obtain ⟨hok, -, hupload⟩ := h.server.processACK p π.downloading
      have hl' : l.step π (.deliverAck (l.requests.length - 1, p)) = some
          { l with
            server := l.server.processACK p (some π.downloading)
            acks := l.acks.erase (l.requests.length - 1, p) } := if_pos (h.mem_acks hp)
      refine ⟨_, _, hl', ⟨hok, ?_, ?_, fun j hj ↦ h.alone j (hkeeps.pooled _ j hj),
        h.conn, h.frame, h.chunk, h.data, ?_, h.requests, h.answers⟩⟩
      · rw [hupload, h.upload]
        split
        · rw [Option.map_some, hs]
        · next hout =>
            have hclosed : ¬ u.sending.pooled = true := fun hin ↦
              hout (h.server.getSender_eq_some_iff.mpr ⟨_, h.upload, hin, h.peer⟩)
            rw [← hs, Sending.processACK, if_neg hclosed]
      · rw [← hs]
        exact hframe.2.2.trans h.peer
      · show l.acks.erase _ = (u.acks.erase p).map _
        rw [h.acks, List.map_erase (Prod.mk_right_injective _)]
  | network hdata hacks => exact h.network hdata hacks

/-- So is every run. -/
theorem Carries.reaches (h : Carries π l₀ i chunk spare u l) (hu : Machine.Reaches Upload.step u u') :
    ∃ l', Machine.Reaches (Link.step π) l l' ∧ Carries π l₀ i chunk spare u' l' := by
  refine Machine.simulation (R := Carries π l₀ i chunk spare) ?_ h hu
  intro u e u' l hl hstep
  obtain ⟨f, l', hl', hcarries⟩ := hl.step hstep
  exact ⟨l', .single hl', hcarries⟩

end Link

end BitTorrent
