import BitTorrent.Download.Sharing
import BitTorrent.Link.System
import BitTorrent.Upload.Receiver

/-!
# Where packets come from

Connections are identified by the peer alone, and every transfer numbers its
packets from 1.  What arrives therefore comes from a transfer between the two
peers, but not always from the one it is taken for.

`Sound` holds in every run: the bytes a receiver stores are those of a chunk the
serving peer was asked for, in this transfer or an earlier one.  `Current` holds as
long as every transfer starts with nothing in flight between the two peers, and the
threads of earlier uploads send no more: then there is only one transfer at a time.
-/

namespace BitTorrent

variable {F : Type} [NatCast F] [Add F] [Div F] [LE F] [DecidableLE F] [TruncU32 F]

namespace Link

set_option linter.unusedSectionVars false

variable {π : Ends} {c₀ : Client} {l l' : Link F} {e : LinkEvent}

/-! ## In every run -/

/-- What holds in every reachable state of the two peers. -/
structure Sound (π : Ends) (c₀ : Client) (l : Link F) : Prop where
  client : c₀.Consistent l.client
  server : l.server.Ok
  uploads : ∀ i pkts, l.server.offer i = some (some π.downloading, pkts) →
    ∃ g, l.requests[l.answers i]? = some g ∧ pkts = (chunk2pkts (π.content g)).1
  gets : ∀ m ∈ l.gets, l.requests[m.1]? = some m.2
  data : ∀ m ∈ l.data, ∃ pkts, l.server.offer m.1 = some (some π.downloading, pkts) ∧ m.2 ∈ pkts
  acks : ∀ m ∈ l.acks, m.1 < l.requests.length
  receiver : ∀ rcvr, getReceiver l.client.receiverPool (some π.serving) = some rcvr →
    rcvr.nextExpected = rcvr.lastRcvd + 1 ∧ rcvr.lastRcvd < dataPktNum ∧
      l.requests.getLast? = some (l.client.getPKT rcvr.chunk)

theorem sound_start (maxDown : Int) (lines : List (Int × List UInt8)) (maxUp : Int) :
    Sound π (.start maxDown lines) (start maxDown lines maxUp : Link F) where
  client := Client.consistent_start maxDown lines
  server := Server.ok_init maxUp
  uploads _ _ h := by cases h
  gets _ h := absurd h List.not_mem_nil
  data _ h := absurd h List.not_mem_nil
  acks _ h := absurd h List.not_mem_nil
  receiver _ h := by cases h

/-- What `look_at` asks for depends on the hash texts only. -/
theorem getPKT_congr {c c' : Client} (h : ∀ r, (c'.chunks r).sha1 = (c.chunks r).sha1) (r : ChunkRef) :
    c'.getPKT r = c.getPKT r := by rw [Client.getPKT, Client.getPKT, h]

theorem Sound.getPKT_eq (h : Sound π c₀ l) {c : Client} (hc : c₀.Consistent c) (r : ChunkRef) :
    c.getPKT r = l.client.getPKT r :=
  getPKT_congr (fun r ↦ (hc.sha1 r).trans (h.client.sha1 r).symm) r

/-- The requests only grow. -/
theorem getElem?_concat_of_some {α : Type} {xs : List α} {k : Nat} {x : α} (h : xs[k]? = some x)
    (y : α) :
    (xs ++ [y])[k]? = some x := by
  obtain ⟨hk, -⟩ := List.getElem?_eq_some_iff.mp h
  rw [List.getElem?_append_left hk, h]

/-- An upload sends packets it offers. -/
theorem mem_sends {i : SenderRef} {e : SendEvent} {pkt : Packet} (h : pkt ∈ l.sends π i e) :
    ∃ pkts, l.server.offer i = some (some π.downloading, pkts) ∧ pkt ∈ pkts := by
  cases e with
  | iterate =>
      simp only [sends] at h
      split at h
      · next s hs =>
          split at h
          · next hpeer =>
              refine ⟨s.sdr.pkts, ?_, List.mem_of_getElem? (Sending.mem_iterate h)⟩
              rw [Server.offer_of_upload hs, hpeer]
          · exact absurd h List.not_mem_nil
      · exact absurd h List.not_mem_nil
  | _ => exact absurd h List.not_mem_nil

/-- A DATA packet in flight is a packet of the content of the request its upload
answers. -/
theorem Sound.packet (h : Sound π c₀ l) {m : SenderRef × Packet} (hm : m ∈ l.data) :
    ∃ g i, l.requests[l.answers m.1]? = some g ∧ i < dataPktNum ∧ m.2 = dataPacket (π.content g) i := by
  obtain ⟨pkts, hoffer, hmem⟩ := h.data m hm
  obtain ⟨g, hg, rfl⟩ := h.uploads m.1 pkts hoffer
  obtain ⟨i, hi, heq⟩ := mem_chunk2pkts.mp hmem
  exact ⟨g, i, hg, hi, heq.symm⟩

/-- The uploads there are keep the requests they answer. -/
theorem answers_update {j : SenderRef} {x : Option PeerRef × List Packet}
    (hj : l.server.offer j = some x) (k : Nat) : Function.update l.answers l.server.senders.length k j = l.answers j :=
  Function.update_of_ne (l.server.ne_of_offer hj).symm _ _

/-- What the receiver for the serving peer makes of a DATA packet that arrives. -/
theorem Sound.arrives (h : Sound π c₀ l) {m : SenderRef × Packet} (hm : m ∈ l.data) {c : Client}
    {replies : List Packet}
    (hproc : l.client.processDATA π.shahash m.2 (some π.serving) = some (c, replies)) :
    (getReceiver l.client.receiverPool (some π.serving) = none ∧ c = l.client ∧ replies = []) ∨
    ∃ rcvr r' g i, getReceiver l.client.receiverPool (some π.serving) = some rcvr ∧
      l.requests[l.answers m.1]? = some g ∧ i < dataPktNum ∧ m.2 = dataPacket (π.content g) i ∧
      Receiving.DataStep { rcvr := rcvr, chunk := (l.client.chunks rcvr.chunk).data, opened := true }
        (π.content g) i (r', replies) ∧
      Receiving.processDATA { rcvr := rcvr, chunk := (l.client.chunks rcvr.chunk).data, opened := true }
        m.2 = some (r', replies) ∧
      c.Connection π.serving r' ∧ l.client.DeliveryFrame c π.serving rcvr.chunk := by
  cases hget : getReceiver l.client.receiverPool (some π.serving) with
  | none =>
      rw [Client.processDATA_of_none π.shahash m.2 hget] at hproc
      cases hproc
      exact .inl ⟨rfl, rfl, rfl⟩
  | some rcvr =>
      obtain ⟨g, i, hg, hi, heq⟩ := h.packet hm
      obtain ⟨hnext, hlt, -⟩ := h.receiver rcvr hget
      have hok : Receiving.Ok
          { rcvr := rcvr, chunk := (l.client.chunks rcvr.chunk).data, opened := true } :=
        ⟨hnext, Nat.le_of_lt hlt, fun _ ↦ hlt, fun _ ↦ rfl⟩
      obtain ⟨⟨r', acks⟩, hout, hcase⟩ := Receiving.processDATA_cases (π.content g) hok hi
      rw [← heq] at hout
      obtain ⟨c', hc', hconn, hframe, -⟩ :=
        (Client.connection_of_get hget).processDATA π.shahash h.client.pool hout
      rw [hproc, Option.some.injEq, Prod.mk.injEq] at hc'
      obtain ⟨rfl, rfl⟩ := hc'
      exact .inr ⟨rcvr, r', g, i, rfl, hg, hi, heq, hcase, hout, hconn, hframe⟩

/-- What the serving peer does for other peers, or without opening an upload. -/
theorem Sound.serves {srv : Server F} (h : Sound π c₀ l) (hapart : l.server.Apart π.downloading srv) :
    Sound π c₀ { l with server := srv } := by
  refine ⟨h.client, hapart.ok, ?_, h.gets, ?_, h.acks, h.receiver⟩
  · intro i pkts hi
    exact h.uploads i pkts ((hapart.offer i pkts).mp hi)
  · intro m hm
    obtain ⟨pkts, hoffer, hmem⟩ := h.data m hm
    exact ⟨pkts, (hapart.offer _ _).mpr hoffer, hmem⟩

/-- The downloading peer asks for a chunk, with the next request. -/
theorem Sound.opens (h : Sound π c₀ l) {c : Client} {down : ChunkRef}
    (hc : l.client.step π.shahash .lookAt = some c)
    (hget : getReceiver c.receiverPool (some π.serving) = some (newReceiver π.serving down)) :
    Sound π c₀
      { l with
        client := c
        gets := (l.requests.length, l.client.getPKT down) :: l.gets
        requests := l.requests ++ [l.client.getPKT down] } := by
  have hclient := h.client.step hc
  refine ⟨hclient, h.server, ?_, ?_, h.data, ?_, ?_⟩
  · intro i pkts hi
    obtain ⟨g, hg, hpkts⟩ := h.uploads i pkts hi
    exact ⟨g, getElem?_concat_of_some hg _, hpkts⟩
  · rintro m (_ | ⟨_, hm⟩)
    · exact List.getElem?_concat_length
    · exact getElem?_concat_of_some (h.gets m hm) _
  · intro m hm
    rw [List.length_append]
    exact Nat.lt_add_right _ (h.acks m hm)
  · intro rcvr hrcvr
    rw [hget, Option.some.injEq] at hrcvr
    subst hrcvr
    refine ⟨rfl, show 0 < dataPktNum by decide, ?_⟩
    rw [List.getLast?_concat, h.getPKT_eq hclient]
    rfl

/-- A GET arrives, and the upload it opens, if it opens one, answers its request. -/
theorem Sound.requested (h : Sound π c₀ l) {m : Nat × Packet} (hm : m ∈ l.gets) :
    Sound π c₀
      { l with
        server := (l.server.processGET π.getDataChunk m.2 (some π.downloading)).1
        gets := l.gets.erase m
        answers := Function.update l.answers l.server.senders.length m.1 } := by
  have hold : ∀ j pkts, l.server.offer j = some (some π.downloading, pkts) →
      ∃ g, l.requests[Function.update l.answers l.server.senders.length m.1 j]? = some g ∧
        pkts = (chunk2pkts (π.content g)).1 := by
    intro j pkts hj
    rw [answers_update hj]
    exact h.uploads j pkts hj
  have hgets : ∀ m' ∈ l.gets.erase m, l.requests[m'.1]? = some m'.2 :=
    fun m' hm' ↦ h.gets m' (List.mem_of_mem_erase hm')
  rcases h.server.processGET_cases π.getDataChunk m.2 π.downloading with
    hkeeps | ⟨hok, -, hoffer, -⟩
  · have hapart := hkeeps.apart π.downloading
    have hs := h.serves hapart
    refine ⟨hs.client, hs.server, ?_, hgets, hs.data, hs.acks, hs.receiver⟩
    intro j pkts hj
    exact hold j pkts ((hapart.offer j pkts).mp hj)
  · refine ⟨h.client, hok, ?_, hgets, ?_, h.acks, h.receiver⟩
    · intro j pkts hj
      rw [hoffer] at hj
      split at hj
      · next hnew =>
          cases hj
          subst hnew
          refine ⟨m.2, ?_, rfl⟩
          show l.requests[Function.update l.answers l.server.senders.length m.1 _]? = _
          rw [Function.update_self]
          exact h.gets m hm
      · exact hold j pkts hj
    · intro m' hm'
      obtain ⟨pkts, hpkts, hmem⟩ := h.data m' hm'
      refine ⟨pkts, ?_, hmem⟩
      rw [hoffer, if_neg (l.server.ne_of_offer hpkts), hpkts]

/-- A DATA packet arrives, and its acknowledgments answer the last request. -/
theorem Sound.delivered (h : Sound π c₀ l) {m : SenderRef × Packet} {c : Client}
    {replies : List Packet} (hm : m ∈ l.data)
    (hproc : l.client.processDATA π.shahash m.2 (some π.serving) = some (c, replies)) :
    Sound π c₀
      { l with
        client := c
        data := l.data.erase m
        acks := replies.map (fun pkt ↦ (l.requests.length - 1, pkt)) ++ l.acks } := by
  have hstep : l.client.step π.shahash (.data m.2 (some π.serving)) = some c :=
    congrArg (Option.map Prod.fst) hproc
  have hclient := h.client.step hstep
  have hdata : ∀ m' ∈ l.data.erase m, ∃ pkts,
      l.server.offer m'.1 = some (some π.downloading, pkts) ∧ m'.2 ∈ pkts :=
    fun m' hm' ↦ h.data m' (List.mem_of_mem_erase hm')
  rcases h.arrives hm hproc with ⟨-, rfl, rfl⟩ |
    ⟨rcvr, r', g, i, hget, -, -, -, hcase, -, hconn, -⟩
  · exact ⟨hclient, h.server, h.uploads, h.gets, hdata, h.acks, h.receiver⟩
  · obtain ⟨hnext, hlt, hlast⟩ := h.receiver rcvr hget
    refine ⟨hclient, h.server, h.uploads, h.gets, hdata, ?_, ?_⟩
    · intro m' hm'
      rcases List.mem_append.mp hm' with hnew | hold
      · obtain ⟨pkt, -, rfl⟩ := List.mem_map.mp hnew
        apply Nat.sub_one_lt
        intro hzero
        rw [List.length_eq_zero_iff.mp hzero] at hlast
        cases hlast
      · exact h.acks m' hold
    · intro rcvr' hget'
      rw [hconn.get] at hget'
      rw [h.getPKT_eq hclient]
      cases hcase with
      | closed hfull => exact absurd hlt (Nat.not_lt_of_le (Nat.le_of_eq hfull.symm))
      | repeated =>
          cases hget'
          exact ⟨hnext, hlt, hlast⟩
      | stored =>
          split at hget'
          · next hopen =>
              cases hget'
              exact ⟨rfl, of_decide_eq_true hopen, hlast⟩
          · cases hget'

/-- Every step keeps track of where packets come from. -/
theorem Sound.step (h : Sound π c₀ l) (hstep : l.step π e = some l') : Sound π c₀ l' := by
  cases step_cases h.client.pool h.server hstep with
  | elsewhere hc hget =>
      have hclient := h.client.step hc
      refine ⟨hclient, h.server, h.uploads, h.gets, h.data, h.acks, ?_⟩
      intro rcvr hrcvr
      rw [hget] at hrcvr
      rw [h.getPKT_eq hclient]
      exact h.receiver rcvr hrcvr
  | opens hc hget _ => exact h.opens hc hget
  | serves hapart => exact h.serves hapart
  | thread he hsrv =>
      have hapart := (h.server.keeps_thread he hsrv).apart π.downloading
      have hs := h.serves hapart
      refine ⟨hs.client, hs.server, hs.uploads, hs.gets, ?_, hs.acks, hs.receiver⟩
      intro m hm
      rcases List.mem_append.mp hm with hnew | hold
      · obtain ⟨pkt, hpkt, rfl⟩ := List.mem_map.mp hnew
        obtain ⟨pkts, hoffer, hmem⟩ := mem_sends hpkt
        exact ⟨pkts, (hapart.offer _ _).mpr hoffer, hmem⟩
      · exact hs.data m hold
  | requested hm => exact h.requested hm
  | arrives hm hproc => exact h.delivered hm hproc
  | @acked m hm =>
      have hs := h.serves ((h.server.keeps_processACK m.2 π.downloading).apart _)
      exact ⟨hs.client, hs.server, hs.uploads, hs.gets, hs.data,
        fun m' hm' ↦ h.acks m' (List.mem_of_mem_erase hm'), hs.receiver⟩
  | network hgets hdata hacks =>
      exact ⟨h.client, h.server, h.uploads, fun m hm ↦ h.gets m (hgets hm),
        fun m hm ↦ h.data m (hdata hm), fun m hm ↦ h.acks m (hacks hm), h.receiver⟩

/-! ## One transfer at a time -/

/-- A transfer starts with nothing in flight between the two peers, and the threads
of earlier uploads send nothing. -/
def Fresh (π : Ends) (l : Link F) : LinkEvent → Prop
  | .lookAt => l.asks π ≠ [] → l.gets = [] ∧ l.data = [] ∧ l.acks = []
  | .thread i e => l.sends π i e ≠ [] → l.answers i + 1 = l.requests.length
  | _ => True

/-- Some upload answers the last request. -/
def Answered (π : Ends) (l : Link F) : Prop :=
  ∃ j pkts, l.server.offer j = some (some π.downloading, pkts) ∧ l.answers j + 1 = l.requests.length

/-- Everything in flight between the two peers, and the upload that acknowledgments
go to, belongs to the last request. -/
structure Current (π : Ends) (l : Link F) : Prop where
  gets : ∀ m ∈ l.gets, m.1 + 1 = l.requests.length
  data : ∀ m ∈ l.data, l.answers m.1 + 1 = l.requests.length
  acks : ∀ m ∈ l.acks, m.1 + 1 = l.requests.length
  pool : l.Answered π → ∀ i, l.server.getSender (some π.downloading) = some i →
    l.answers i + 1 = l.requests.length
  acked : l.acks ≠ [] → l.Answered π

theorem current_start (maxDown : Int) (lines : List (Int × List UInt8)) (maxUp : Int) :
    Current π (start maxDown lines maxUp : Link F) where
  gets _ h := absurd h List.not_mem_nil
  data _ h := absurd h List.not_mem_nil
  acks _ h := absurd h List.not_mem_nil
  pool := by
    rintro ⟨j, pkts, hj, -⟩
    cases hj
  acked h := absurd rfl h

/-- What the serving peer does for other peers, or without opening an upload. -/
theorem Current.serves {srv : Server F} (h : Current π l) (hapart : l.server.Apart π.downloading srv) :
    Current π { l with server := srv } := by
  refine ⟨h.gets, h.data, h.acks, ?_, ?_⟩
  · rintro ⟨j, pkts, hj, hlast⟩ i hi
    exact h.pool ⟨j, pkts, (hapart.offer j pkts).mp hj, hlast⟩ i (hapart.pooled i hi)
  · intro hne
    obtain ⟨j, pkts, hj, hlast⟩ := h.acked hne
    exact ⟨j, pkts, (hapart.offer j pkts).mpr hj, hlast⟩

/-- The upload a peer finds in the pool is one of those for that peer. -/
theorem offer_of_getSender {srv : Server F} (h : srv.Ok) {p : PeerRef} {i : SenderRef}
    (hi : srv.getSender (some p) = some i) : ∃ pkts, srv.offer i = some (some p, pkts) := by
  obtain ⟨s, hs, -, hpeer⟩ := h.getSender_eq_some_iff.mp hi
  exact ⟨s.sdr.pkts, by rw [Server.offer_of_upload hs, hpeer]⟩

/-- A GET of the last request arrives. -/
theorem Current.requested (h : Current π l) (hs : Sound π c₀ l) {m : Nat × Packet}
    (hm : m ∈ l.gets) :
    Current π
      { l with
        server := (l.server.processGET π.getDataChunk m.2 (some π.downloading)).1
        gets := l.gets.erase m
        answers := Function.update l.answers l.server.senders.length m.1 } := by
  have hdata : ∀ m' ∈ l.data,
      Function.update l.answers l.server.senders.length m.1 m'.1 + 1 = l.requests.length := by
    intro m' hm'
    obtain ⟨pkts, hoffer, -⟩ := hs.data m' hm'
    rw [answers_update hoffer]
    exact h.data m' hm'
  have hgets : ∀ m' ∈ l.gets.erase m, m'.1 + 1 = l.requests.length :=
    fun m' hm' ↦ h.gets m' (List.mem_of_mem_erase hm')
  rcases hs.server.processGET_cases π.getDataChunk m.2 π.downloading with
    hkeeps | ⟨hok, hget, hoffer, -⟩
  · refine ⟨hgets, hdata, h.acks, ?_, ?_⟩
    · rintro ⟨j, pkts, hj, hlast⟩ i hi
      rw [hkeeps.offer] at hj
      have hi' := hkeeps.pooled _ i hi
      obtain ⟨pkts', hoffer⟩ := offer_of_getSender hs.server hi'
      show Function.update l.answers _ _ i + 1 = _
      rw [answers_update hoffer]
      exact h.pool ⟨j, pkts, hj, (answers_update hj m.1) ▸ hlast⟩ i hi'
    · intro hne
      obtain ⟨j, pkts, hj, hlast⟩ := h.acked hne
      exact ⟨j, pkts, hkeeps.offer ▸ hj, (congrArg (· + 1) (answers_update hj m.1)).trans hlast⟩
  · refine ⟨hgets, hdata, h.acks, ?_, ?_⟩
    · -- what the peer finds now is the upload this request has opened
      rintro - i hi
      rw [show _ = some _ from hget, Option.some.injEq] at hi
      subst hi
      show Function.update l.answers l.server.senders.length m.1 _ + 1 = _
      rw [Function.update_self]
      exact h.gets m hm
    · intro hne
      obtain ⟨j, pkts, hj, hlast⟩ := h.acked hne
      refine ⟨j, pkts, ?_, (congrArg (· + 1) (answers_update hj m.1)).trans hlast⟩
      rw [hoffer, if_neg (l.server.ne_of_offer hj), hj]

/-- A step that meets the condition keeps to the last request. -/
theorem Current.step (h : Current π l) (hs : Sound π c₀ l) (he : l.Fresh π e)
    (hstep : l.step π e = some l') : Current π l' := by
  cases step_cases hs.client.pool hs.server hstep with
  | elsewhere => exact ⟨h.gets, h.data, h.acks, h.pool, h.acked⟩
  | opens hc hget hasks =>
      obtain ⟨hgets, hdata, hacks⟩ := he hasks
      refine ⟨?_, ?_, ?_, ?_, fun hne ↦ absurd hacks hne⟩
      · intro m hm
        rw [hgets, List.mem_singleton] at hm
        rw [hm, List.length_append]
        rfl
      · intro m hm
        rw [show _ = [] from hdata] at hm
        exact absurd hm List.not_mem_nil
      · intro m hm
        rw [show _ = [] from hacks] at hm
        exact absurd hm List.not_mem_nil
      · -- no upload answers the new request yet
        rintro ⟨j, pkts, hj, hlast⟩
        obtain ⟨g, hg, -⟩ := hs.uploads j pkts hj
        obtain ⟨hlt, -⟩ := List.getElem?_eq_some_iff.mp hg
        rw [List.length_append, List.length_singleton] at hlast
        exact absurd (Nat.succ_inj.mp hlast) (Nat.ne_of_lt hlt)
  | serves hapart => exact h.serves hapart
  | thread hne hsrv =>
      have hc := h.serves ((hs.server.keeps_thread hne hsrv).apart _)
      refine ⟨hc.gets, ?_, hc.acks, hc.pool, hc.acked⟩
      intro m hm
      rcases List.mem_append.mp hm with hnew | hold
      · obtain ⟨pkt, hpkt, rfl⟩ := List.mem_map.mp hnew
        exact he (List.ne_nil_of_mem hpkt)
      · exact hc.data m hold
  | requested hm => exact h.requested hs hm
  | @arrives m c replies hm hproc =>
      obtain ⟨pkts, hoffer, -⟩ := hs.data m hm
      have hans : l.Answered π := ⟨m.1, pkts, hoffer, h.data m hm⟩
      refine ⟨h.gets, fun m' hm' ↦ h.data m' (List.mem_of_mem_erase hm'), ?_, h.pool, fun _ ↦ hans⟩
      intro m' hm'
      rcases List.mem_append.mp hm' with hnew | hold
      · obtain ⟨pkt, -, rfl⟩ := List.mem_map.mp hnew
        have hpos : 0 < l.requests.length := by
          rw [← h.data m hm]
          exact Nat.succ_pos _
        exact Nat.sub_add_cancel hpos
      · exact h.acks m' hold
  | @acked m hm =>
      have hc := h.serves ((hs.server.keeps_processACK m.2 π.downloading).apart _)
      exact ⟨hc.gets, hc.data, fun m' hm' ↦ h.acks m' (List.mem_of_mem_erase hm'), hc.pool,
        fun _ ↦ hc.acked (List.ne_nil_of_mem hm)⟩
  | network hgets hdata hacks =>
      refine ⟨fun m hm ↦ h.gets m (hgets hm), fun m hm ↦ h.data m (hdata hm),
        fun m hm ↦ h.acks m (hacks hm), h.pool, ?_⟩
      intro hne
      obtain ⟨m, hm⟩ := List.exists_mem_of_ne_nil _ hne
      exact h.acked (List.ne_nil_of_mem (hacks hm))

/-! ### One request -/

/-- No step takes a request back. -/
theorem Sound.requests_le (h : Sound π c₀ l) (hstep : l.step π e = some l') :
    l.requests.length ≤ l'.requests.length := by
  cases step_cases h.client.pool h.server hstep with
  | opens =>
      rw [List.length_append]
      exact Nat.le_add_right _ _
  | _ => exact Nat.le_refl _

/-- There is nothing an earlier request can have left as long as there is only one. -/
theorem Sound.fresh (h : Sound π c₀ l) (hstep : l.step π e = some l')
    (hone : l'.requests.length ≤ 1) : l.Fresh π e := by
  cases e with
  | lookAt =>
      intro hasks
      cases hstep
      have hnone : l.requests = [] := by
        have hpos := List.length_pos_iff.mpr hasks
        rw [List.length_append] at hone
        exact List.length_eq_zero_iff.mp (by omega)
      have hget : ∀ k : Nat, l.requests[k]? = none := fun k ↦ by rw [hnone, List.getElem?_nil]
      refine ⟨List.eq_nil_iff_forall_not_mem.mpr fun m hm ↦ ?_,
        List.eq_nil_iff_forall_not_mem.mpr fun m hm ↦ ?_,
        List.eq_nil_iff_forall_not_mem.mpr fun m hm ↦ ?_⟩
      · have hm := h.gets m hm
        rw [hget] at hm
        cases hm
      · obtain ⟨g, -, hg, -⟩ := h.packet hm
        rw [hget] at hg
        cases hg
      · have hm := h.acks m hm
        rw [hnone] at hm
        cases hm
  | thread i e =>
      intro hsends
      obtain ⟨pkt, hpkt⟩ := List.exists_mem_of_ne_nil _ hsends
      obtain ⟨pkts, hoffer, -⟩ := mem_sends hpkt
      obtain ⟨g, hg, -⟩ := h.uploads i pkts hoffer
      obtain ⟨hlt, -⟩ := List.getElem?_eq_some_iff.mp hg
      have hle := h.requests_le hstep
      omega
  | _ => trivial

/-- A run with one request meets the condition. -/
theorem Sound.along_fresh (h : Sound π c₀ l) {es : List LinkEvent}
    (hrun : Machine.run (Link.step π) l es = some l') (hone : l'.requests.length ≤ 1) :
    Machine.Along (Link.step π) (Fresh π) l es := by
  induction es generalizing l with
  | nil => trivial
  | cons e es ih =>
      obtain ⟨l₁, hstep, hrest⟩ := Machine.run_cons_eq_some.mp hrun
      have hle : Sound π c₀ l' ∧ l₁.requests.length ≤ l'.requests.length := by
        refine Machine.invariant
          (P := fun l ↦ Sound π c₀ l ∧ l₁.requests.length ≤ l.requests.length) ?_ hrest
          ⟨h.step hstep, Nat.le_refl _⟩
        rintro l e l' ⟨hs, hle⟩ hstep
        exact ⟨hs.step hstep, hle.trans (hs.requests_le hstep)⟩
      exact (Machine.along_cons_of_step hstep).mpr
        ⟨h.fresh hstep (hle.2.trans hone), ih (h.step hstep) hrest⟩

/-! ## What is stored and applied -/

/-- Delivering `m` changes the buffer of chunk `r` only by storing bytes of the content
of the request its upload answers, in their places. -/
structure Stores (π : Ends) (l : Link F) (m : SenderRef × Packet) (l' : Link F) (r : ChunkRef)
    (rcvr : Receiver) (g : Packet) : Prop where
  receiver : getReceiver l.client.receiverPool (some π.serving) = some rcvr
  chunk : rcvr.chunk = r
  asked : l.requests.getLast? = some (l.client.getPKT r)
  answered : l.requests[l.answers m.1]? = some g
  packet : m.2 = dataPacket (π.content g) rcvr.lastRcvd
  bytes : ∀ j : Nat, (l'.client.chunks r).data.bytes[j]? = (l.client.chunks r).data.bytes[j]? ∨
    (l'.client.chunks r).data.bytes[j]? = (π.content g).bytes[j]?

theorem Sound.stores (h : Sound π c₀ l) {m : SenderRef × Packet}
    (hstep : l.step π (.deliverData m) = some l') {r : ChunkRef}
    (hr : (l'.client.chunks r).data ≠ (l.client.chunks r).data) :
    ∃ rcvr g, l.Stores π m l' r rcvr g := by
  simp only [Link.step, Option.ite_none_right_eq_some, Option.map_eq_some_iff] at hstep
  obtain ⟨hm, ⟨c, replies⟩, hproc, rfl⟩ := hstep
  rcases h.arrives hm hproc with ⟨-, rfl, -⟩ |
    ⟨rcvr, r', g, i, hget, hg, hi, hpkt, hcase, hout, hconn, hframe⟩
  · exact absurd rfl hr
  · obtain ⟨hnext, hlt, hlast⟩ := h.receiver rcvr hget
    have hchunk : rcvr.chunk = r := by
      by_contra hne
      exact hr (hframe.data r (Ne.symm hne))
    subst hchunk
    cases hcase with
    | closed => exact absurd hconn.data hr
    | repeated => exact absurd hconn.data hr
    | @stored chunk _ heq =>
        refine ⟨rcvr, g, hget, rfl, hlast, hg, heq ▸ hpkt, ?_⟩
        rw [Receiving.processDATA, if_pos rfl, Option.map_eq_some_iff] at hout
        obtain ⟨⟨rcvr', chunk'⟩, hstore, hout⟩ := hout
        simp only [Prod.mk.injEq] at hout
        have hbuffer : chunk' = chunk := congrArg Receiving.chunk hout.1
        have hdata : (c.chunks rcvr.chunk).data = chunk := hconn.data
        rw [hpkt] at hstore
        intro j
        show (c.chunks rcvr.chunk).data.bytes[j]? = _ ∨ (c.chunks rcvr.chunk).data.bytes[j]? = _
        rw [hdata, ← hbuffer]
        exact Receiver.getElem?_store hi hnext hstore j

/-- If the upload of the packet answers the last request, the content is that of the
chunk's own request. -/
theorem Stores.current {m : SenderRef × Packet} {r : ChunkRef} {rcvr : Receiver} {g : Packet}
    (h : l.Stores π m l' r rcvr g) (hlast : l.answers m.1 + 1 = l.requests.length) :
    l.Stores π m l' r rcvr (l.client.getPKT r) := by
  have hg : g = l.client.getPKT r := by
    have hasked := h.asked
    rw [List.getLast?_eq_getElem?, ← hlast, Nat.add_sub_cancel, h.answered, Option.some.injEq] at hasked
    exact hasked
  exact hg ▸ h

/-- In every run of the two peers, a DATA packet that changes a buffer was built for
the content of a request, this one or an earlier one, is the one the receiver waits
for, and changes bytes to the content's only; and an ACK in flight was sent by the
receiver of some request.  If every transfer starts with nothing in flight and the
uploads of earlier ones stay silent, then the content is that of the chunk's own
request, and ACKs go to the upload that answers the request of their receiver. -/
theorem transfers_apart {maxDown : Int} {lines : List (Int × List UInt8)} {maxUp : Int}
    {es : List LinkEvent}
    (hrun : Machine.run (step π) (start maxDown lines maxUp : Link F) es = some l) :
    (∀ m l', l.step π (.deliverData m) = some l' → ∀ r,
      (l'.client.chunks r).data ≠ (l.client.chunks r).data → ∃ rcvr g, l.Stores π m l' r rcvr g) ∧
    (∀ m ∈ l.acks, m.1 < l.requests.length) ∧
    (Machine.Along (step π) (Fresh π) (start maxDown lines maxUp : Link F) es →
      (∀ m l', l.step π (.deliverData m) = some l' → ∀ r,
        (l'.client.chunks r).data ≠ (l.client.chunks r).data →
          ∃ rcvr, l.Stores π m l' r rcvr (l.client.getPKT r)) ∧
      (∀ m ∈ l.data, l.answers m.1 + 1 = l.requests.length) ∧
      ∀ m ∈ l.acks, m.1 + 1 = l.requests.length ∧
        ∀ i, l.server.getSender (some π.downloading) = some i → l.answers i = m.1) := by
  have hsound : Sound π (.start maxDown lines) l :=
    Machine.invariant (fun _ _ _ h hstep ↦ Sound.step h hstep) hrun (sound_start maxDown lines maxUp)
  refine ⟨?_, hsound.acks, ?_⟩
  · intro m l' hstep r hr
    exact hsound.stores hstep hr
  · intro hfresh
    obtain ⟨-, hcurrent⟩ : Sound π (.start maxDown lines) l ∧ Current π l := by
      refine Machine.invariant_along
        (P := fun l ↦ Sound π (.start maxDown lines) l ∧ Current π l) ?_ hfresh hrun
        ⟨sound_start maxDown lines maxUp, current_start maxDown lines maxUp⟩
      rintro l e l' ⟨hs, hc⟩ he hstep
      exact ⟨hs.step hstep, hc.step hs he hstep⟩
    refine ⟨?_, hcurrent.data, ?_⟩
    · intro m l' hstep r hr
      obtain ⟨rcvr, g, hstores⟩ := hsound.stores hstep hr
      have hm : m ∈ l.data := by
        by_contra hm
        rw [Link.step, if_neg hm] at hstep
        cases hstep
      exact ⟨rcvr, hstores.current (hcurrent.data m hm)⟩
    · intro m hm
      refine ⟨hcurrent.acks m hm, ?_⟩
      intro i hi
      have hlast := hcurrent.pool (hcurrent.acked (List.ne_nil_of_mem hm)) i hi
      exact Nat.succ_inj.mp (hlast.trans (hcurrent.acks m hm).symm)

/-- A peer that serves chunks of ones, and one that downloads. -/
def onesEnds : Ends where
  serving := 0
  downloading := 1
  shahash := Client.firstBytes
  getDataChunk := fun _ ↦ .fill 1

/-- A chunk is announced and asked for.  Its first packet arrives, the network duplicates the
ACK, and one of the two lets the second packet be sent. -/
def twoPackets : List LinkEvent :=
  [.ihave Client.zeroIHAVE (some 0), .lookAt,
    .deliverGet (0, (Client.start 1 Client.zeroLine).getPKT 0), .thread 0 .begin,
    .thread 0 .iterate, .deliverData (0, dataPacket (.fill 1) 0),
    .network [] [] [(0, makeACK 1), (0, makeACK 1)], .deliverAck (0, makeACK 1),
    .thread 0 .iterate]

/-- The second packet and the other ACK are in flight then.  There is an upload for the ACK, and
the packet will change the chunk. -/
theorem run_twoPackets : ∃ l l' : Link ℚ,
    Machine.run (step onesEnds) (start 1 Client.zeroLine 1) twoPackets = some l ∧
    l.step onesEnds (.deliverData (0, dataPacket (.fill 1) 1)) = some l' ∧
    l.acks = [(0, makeACK 1)] ∧ l.requests.length = 1 ∧
    l.server.getSender (some onesEnds.downloading) = some 0 ∧
    (l'.client.chunks 0).data ≠ (l.client.chunks 0).data := by
  have hvalues : ((Machine.run (step onesEnds) (start 1 Client.zeroLine 1 : Link ℚ)
      twoPackets).bind fun l ↦ (l.step onesEnds (.deliverData (0, dataPacket (.fill 1) 1))).map
        fun l' ↦ (l.acks, l.requests.length, l.server.getSender (some onesEnds.downloading),
          decide ((l'.client.chunks 0).data.bytes[dataSize]? =
            (l.client.chunks 0).data.bytes[dataSize]?))) =
      some ([(0, makeACK 1)], 1, some 0, false) := by decide +kernel
  obtain ⟨l, hrun, hl⟩ := Option.bind_eq_some_iff.mp hvalues
  obtain ⟨l', hstep, hl'⟩ := Option.map_eq_some_iff.mp hl
  simp only [Prod.mk.injEq] at hl'
  obtain ⟨hacks, hone, hsender, hbyte⟩ := hl'
  refine ⟨l, l', hrun, hstep, hacks, hone, hsender, fun heq ↦ ?_⟩
  rw [heq] at hbyte
  exact of_decide_eq_false hbyte rfl

/-- What that packet changes is the chunk it was asked for, and the ACK goes to the upload that
answers the request. -/
theorem transfers_apart_ones : ∃ (l l' : Link ℚ) (rcvr : Receiver),
    Machine.run (step onesEnds) (start 1 Client.zeroLine 1) twoPackets = some l ∧
    l.step onesEnds (.deliverData (0, dataPacket (.fill 1) 1)) = some l' ∧
    l.Stores onesEnds (0, dataPacket (.fill 1) 1) l' 0 rcvr (l.client.getPKT 0) ∧
    l.acks = [(0, makeACK 1)] ∧ l.server.getSender (some onesEnds.downloading) = some 0 ∧
    ∀ m ∈ l.acks, l.answers 0 = m.1 := by
  obtain ⟨l, l', hrun, hstep, hacks, hone, hsender, hchanged⟩ := run_twoPackets
  have hfresh := (sound_start 1 Client.zeroLine 1).along_fresh hrun hone.le
  obtain ⟨hstores, -, hpool⟩ := (transfers_apart hrun).2.2 hfresh
  obtain ⟨rcvr, hrcvr⟩ := hstores _ l' hstep 0 hchanged
  exact ⟨l, l', rcvr, hrun, hstep, hrcvr, hacks, hsender, fun m hm ↦ (hpool m hm).2 0 hsender⟩

end Link

end BitTorrent
