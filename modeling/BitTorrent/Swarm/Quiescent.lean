import BitTorrent.Download.Sharing
import BitTorrent.Swarm.System

/-!
# Downloads that stand still

`receiver_pool` gives up a receiver only when its chunk is complete, and `process_DENIED`
does nothing: a receiver whose GET was denied, or whose upload was ended by an ACK of an
earlier transfer, stays for good.  Without one the next `look_at` sends a GET for what
`choose_chunk_to_download` picks, if that has a holder.
-/

namespace BitTorrent

set_option linter.unusedSectionVars false

variable {F : Type} [NatCast F] [Add F] [Div F] [LE F] [DecidableLE F] [TruncU32 F]

namespace Swarm

variable {π : Setting} {s s' : Swarm F} {e : SwarmEvent} {max : Int} {p q : PeerRef}

/-! ## What is to come from a peer -/

/-- The downloading peer has a receiver for `p`. -/
def Awaits (s : Swarm F) (p : PeerRef) : Prop := getReceiver s.client.receiverPool (some p) ≠ none

/-- A GET for `p` is in flight, or `p` has an upload to the downloading peer open. -/
def Pending (π : Setting) (s : Swarm F) (p : PeerRef) : Prop :=
  s.gets p ≠ [] ∨ (s.servers p).HasUpload π.downloading

/-- The step takes away what was to come from `q`: the last GET in flight to it is denied,
or with none in flight an ACK ends its upload. -/
def Loses (π : Setting) (s : Swarm F) : SwarmEvent → PeerRef → Prop
  | .deliverGet p, q => q = p ∧ (s.gets p).length = 1 ∧ (s.servers p).Denies π.downloading
  | .deliverAck p pkt, q =>
      q = p ∧ s.gets p = [] ∧ (s.servers p).Ends π.downloading pkt.header.ackNum.toNat
  | _, _ => False

/-- The step takes nothing away from a peer for which there is a receiver. -/
def Sustains (π : Setting) (s : Swarm F) (e : SwarmEvent) : Prop := ∀ q, s.Awaits q → ¬ s.Loses π e q

/-- Each receiver has something to come. -/
def NoneStranded (π : Setting) (s : Swarm F) : Prop := ∀ p, s.Awaits p → s.Pending π p

/-- What holds in every state of a swarm. -/
structure Sound (max : Int) (s : Swarm F) : Prop where
  pool : s.client.receiverPool.Ok
  limit : s.client.receiverPool.maxNum = max
  servers : ∀ p, (s.servers p).Ok
  holders : ∀ ref, none ∉ (s.client.chunks ref).holders

theorem sound_start (max : Int) (lines : List (Int × List UInt8)) (maxUp : PeerRef → Int) :
    (start max lines maxUp : Swarm F).Sound max where
  pool := ⟨rfl, List.nodup_nil⟩
  limit := rfl
  servers p := Server.ok_init (maxUp p)
  holders ref := by
    show none ∉ ((Client.start max lines).chunks ref).holders
    rw [Client.holders_start]
    exact List.not_mem_nil

theorem noneStranded_start (π : Setting) (max : Int) (lines : List (Int × List UInt8))
    (maxUp : PeerRef → Int) : (start max lines maxUp : Swarm F).NoneStranded π :=
  fun _ h ↦ absurd rfl h

/-! ## What a step changes -/

/-- The downloading peer after a packet: it opens no receiver, and enters no `NULL` holder. -/
structure Receives (c c' : Client) : Prop where
  pool : c'.receiverPool.Ok
  maxNum : c'.receiverPool.maxNum = c.receiverPool.maxNum
  awaits : ∀ q, getReceiver c'.receiverPool (some q) ≠ none → getReceiver c.receiverPool (some q) ≠ none
  holders : ∀ ref, none ∈ (c'.chunks ref).holders → none ∈ (c.chunks ref).holders

theorem Receives.refl {c : Client} (h : c.receiverPool.Ok) : Receives c c :=
  ⟨h, rfl, fun _ hq ↦ hq, fun _ hn ↦ hn⟩

theorem receives_processIHAVE {c c' : Client} {pkt : Packet} (hpool : c.receiverPool.Ok)
    (h : c.processIHAVE pkt (some p) = some c') : Receives c c' := by
  obtain ⟨iHave, hpkt, -⟩ := Option.map_eq_some_iff.mp h
  have hsame := (Client.processIHAVE_frame h).2.2.2
  refine ⟨hsame ▸ hpool, hsame ▸ rfl, fun q hq ↦ hsame ▸ hq, fun ref hmem ↦ ?_⟩
  rw [Client.holders_processIHAVE hpkt h] at hmem
  rcases List.mem_append.mp hmem with hold | hnew
  · exact hold
  · exact absurd (List.eq_of_mem_replicate hnew).symm (Option.some_ne_none p)

theorem receives_processDATA {c c' : Client} {shahash : List UInt8 → List UInt8} {pkt : Packet}
    {acks : List Packet} (hpool : c.receiverPool.Ok)
    (h : c.processDATA shahash pkt (some p) = some (c', acks)) : Receives c c' := by
  rcases Client.processDATA_cases hpool h with rfl | ⟨p', rcvr, r', hp, hget, -, -, -, hframe, -⟩
  · exact .refl hpool
  · rw [Option.some.injEq] at hp
    subst hp
    refine ⟨hframe.pool, hframe.maxNum, fun q hq ↦ ?_, fun ref hmem ↦ hframe.holders ref ▸ hmem⟩
    by_cases hpq : p = q
    · rw [← hpq, hget]
      exact Option.some_ne_none _
    · rwa [hframe.others q hpq] at hq

/-- The kinds of steps, as far as the receivers, the GETs in flight and the uploads to the
downloading peer are concerned. -/
inductive Change (π : Setting) (s : Swarm F) : SwarmEvent → Swarm F → Prop
  | asks {t} : t.client = s.client.lookAt.1 → t.servers = s.servers →
      (∀ r, t.gets r = s.gets r ++ sentTo r s.client.lookAt.2) → Change π s .lookAt t
  /-- The downloading peer handles a packet, or nothing happens to either side. -/
  | receives {f t} : (∀ q, ¬ s.Loses π f q) → Receives s.client t.client →
      t.servers = s.servers → t.gets = s.gets → Change π s f t
  /-- A serving peer does something that is not for the downloading one. -/
  | serves {f t r srv} : (∀ q, ¬ s.Loses π f q) → srv.Ok →
      (srv.HasUpload π.downloading ↔ (s.servers r).HasUpload π.downloading) →
      t.client = s.client → t.servers = Function.update s.servers r srv → t.gets = s.gets →
      Change π s f t
  | requested {t r pkt rest srv} : s.gets r = pkt :: rest → srv.Ok →
      (srv.HasUpload π.downloading ↔ ¬ (s.servers r).Denies π.downloading) →
      t.client = s.client → t.servers = Function.update s.servers r srv →
      t.gets = Function.update s.gets r rest → Change π s (.deliverGet r) t
  | acked {t r pkt srv} : srv.Ok →
      (srv.HasUpload π.downloading ↔ (s.servers r).HasUpload π.downloading ∧
        ¬ (s.servers r).Ends π.downloading pkt.header.ackNum.toNat) →
      t.client = s.client → t.servers = Function.update s.servers r srv → t.gets = s.gets →
      Change π s (.deliverAck r pkt) t

theorem step_cases (hpool : s.client.receiverPool.Ok) (hservers : ∀ p, (s.servers p).Ok)
    (hstep : s.step π e = some s') : s.Change π e s' := by
  cases e with
  | lookAt =>
      cases hstep
      exact .asks rfl rfl fun _ ↦ rfl
  | ihave p pkt =>
      obtain ⟨c, hc, rfl⟩ := Option.map_eq_some_iff.mp hstep
      exact .receives (fun _ h ↦ h) (receives_processIHAVE hpool hc) rfl rfl
  | deliverGet p =>
      simp only [Swarm.step] at hstep
      split at hstep
      · cases hstep
      · next pkt rest hgets =>
          obtain ⟨⟨srv, sent⟩, hsrv, rfl⟩ := Option.map_eq_some_iff.mp hstep
          obtain ⟨hok, hiff, -⟩ := (hservers p).hasUpload_processGET (q := p) hsrv
          exact .requested hgets hok hiff rfl rfl rfl
  | deliverDenied p =>
      simp only [Swarm.step] at hstep
      split at hstep
      · cases hstep
      · cases hstep
        exact .receives (fun _ h ↦ h) (.refl hpool) rfl rfl
  | deliverData p pkt =>
      simp only [Swarm.step, Option.ite_none_right_eq_some, Option.map_eq_some_iff] at hstep
      obtain ⟨-, ⟨c, replies⟩, hc, rfl⟩ := hstep
      exact .receives (fun _ h ↦ h) (receives_processDATA hpool hc) rfl rfl
  | deliverAck p pkt =>
      simp only [Swarm.step, Option.ite_none_right_eq_some, Option.some.injEq] at hstep
      obtain ⟨-, rfl⟩ := hstep
      have hiff := (hservers p).hasUpload_processACK (q := π.downloading) pkt π.downloading
      simp only [true_and] at hiff
      exact .acked ((hservers p).processACK pkt _).1 hiff rfl rfl rfl
  | network p data acks =>
      simp only [Swarm.step, Option.ite_none_right_eq_some, Option.some.injEq] at hstep
      obtain ⟨-, rfl⟩ := hstep
      exact .receives (fun _ h ↦ h) (.refl hpool) rfl rfl
  | otherGet p pkt q =>
      simp only [Swarm.step, Option.ite_none_right_eq_some, Option.map_eq_some_iff] at hstep
      obtain ⟨hq, ⟨srv, sent⟩, hsrv, rfl⟩ := hstep
      obtain ⟨hok, -, hother⟩ := (hservers p).hasUpload_processGET (q := π.downloading) hsrv
      exact .serves (fun _ h ↦ h) hok (hother (Ne.symm hq)) rfl rfl rfl
  | otherAck p pkt q =>
      simp only [Swarm.step, Option.ite_none_right_eq_some, Option.some.injEq] at hstep
      obtain ⟨hq, rfl⟩ := hstep
      have hiff := (hservers p).hasUpload_processACK (q := π.downloading) pkt q
      refine .serves (fun _ h ↦ h) ((hservers p).processACK pkt _).1 (hiff.trans ?_) rfl rfl rfl
      exact and_iff_left fun hc ↦ hq hc.1.symm
  | thread p i e =>
      cases e with
      | ack n => cases hstep
      | _ =>
          obtain ⟨srv, hsrv, rfl⟩ := Option.map_eq_some_iff.mp hstep
          exact .serves (fun _ h ↦ h) ((hservers p).thread (by rintro n ⟨⟩) hsrv).1
            ((hservers p).hasUpload_thread (by rintro n ⟨⟩) hsrv) rfl rfl rfl

/-! ## Steps of the swarm -/

/-- One serving peer replaced by another that is as good. -/
theorem servers_update {servers : PeerRef → Server F} {srv : Server F}
    (h : ∀ q, (servers q).Ok) (hsrv : srv.Ok) (p q : PeerRef) : (Function.update servers p srv q).Ok := by
  by_cases hq : q = p
  · subst hq
    rwa [Function.update_self]
  · rw [Function.update_of_ne hq]
    exact h q

/-- Every step keeps the pools right, and the holders are peers. -/
theorem Sound.step (h : s.Sound max) (hstep : s.step π e = some s') : s'.Sound max := by
  cases step_cases h.pool h.servers hstep with
  | asks hclient hservers hgets =>
      refine ⟨hclient ▸ Client.ok_lookAt h.pool, ?_, fun q ↦ hservers ▸ h.servers q, fun ref ↦ ?_⟩
      · rw [hclient]
        exact (Client.maxNum_lookAt s.client).trans h.limit
      · rw [hclient, Client.holders_lookAt]
        exact h.holders ref
  | receives _ hclient hservers _ =>
      exact ⟨hclient.pool, hclient.maxNum.trans h.limit, fun q ↦ hservers ▸ h.servers q,
        fun ref hn ↦ h.holders ref (hclient.holders ref hn)⟩
  | serves _ hok _ hclient hservers _ | requested _ hok _ hclient hservers _
  | acked hok _ hclient hservers _ =>
      refine ⟨hclient ▸ h.pool, hclient ▸ h.limit, ?_, hclient ▸ h.holders⟩
      rw [hservers]
      exact servers_update h.servers hok _

/-- A receiver that a step opens has a GET in flight. -/
theorem awaits_step (h : s.Sound max) (hstep : s.step π e = some s') (hq : s'.Awaits q) :
    s.Awaits q ∨ s'.gets q ≠ [] := by
  cases step_cases h.pool h.servers hstep with
  | asks hclient _ hgets =>
      rw [Awaits, hclient] at hq
      rw [hgets]
      rcases Client.receivers_lookAt h.pool with ⟨-, hsame⟩ | ⟨p, down, hsent, hreceivers⟩
      · rw [hsame] at hq
        exact .inl hq
      · rw [hreceivers] at hq
        split at hq
        · next hp =>
            refine .inr (List.append_ne_nil_of_right_ne_nil _ ?_)
            simp [hsent, sentTo, hp]
        · exact .inl hq
  | receives _ hclient _ _ => exact .inl (hclient.awaits q hq)
  | serves _ _ _ hclient _ _ | requested _ _ _ hclient _ _ | acked _ _ hclient _ _ =>
      rw [Awaits, hclient] at hq
      exact .inl hq

/-- What was to come from a peer is still to come unless the step takes it away. -/
theorem pending_step (h : s.Sound max) (hstep : s.step π e = some s') (hq : s.Pending π q) :
    s'.Pending π q ↔ ¬ s.Loses π e q := by
  cases step_cases h.pool h.servers hstep with
  | asks _ hservers hgets =>
      refine iff_of_true (hq.imp ?_ ?_) fun hc ↦ hc
      · intro hne
        rw [hgets]
        exact List.append_ne_nil_of_left_ne_nil hne _
      · rw [hservers]
        exact id
  | receives hloses _ hservers hgets =>
      rw [Pending, hservers, hgets]
      exact iff_of_true hq (hloses q)
  | @serves _ _ r srv hloses _ hiff _ hservers hgets =>
      rw [Pending, hservers, hgets]
      refine iff_of_true (hq.imp id fun hhas ↦ ?_) (hloses q)
      by_cases hqr : q = r
      · subst hqr
        rw [Function.update_self]
        exact hiff.mpr hhas
      · rwa [Function.update_of_ne hqr]
  | @requested _ r pkt rest srv hhead _ hiff _ hservers hgets =>
      rw [Pending, hservers, hgets]
      by_cases hqr : q = r
      · subst hqr
        rw [Function.update_self, Function.update_self, hiff, Loses, hhead, List.length_cons,
          Nat.succ_inj, List.length_eq_zero_iff]
        exact not_and_or.symm.trans (not_congr (and_iff_right rfl).symm)
      · rw [Function.update_of_ne hqr, Function.update_of_ne hqr]
        exact iff_of_true hq fun hc ↦ hqr hc.1
  | @acked _ r pkt srv _ hiff _ hservers hgets =>
      rw [Pending, hservers, hgets]
      by_cases hqr : q = r
      · subst hqr
        rw [Function.update_self, hiff, Loses]
        constructor
        · rintro (hget | ⟨-, hkeeps⟩) ⟨-, hnone, hends⟩
          · exact hget hnone
          · exact hkeeps hends
        · intro hnot
          by_cases hnone : s.gets q = []
          · have hopen := hq.resolve_left fun hget ↦ hget hnone
            exact .inr ⟨hopen, fun hends ↦ hnot ⟨rfl, hnone, hends⟩⟩
          · exact .inl hnone
      · rw [Function.update_of_ne hqr]
        exact iff_of_true hq fun hc ↦ hqr hc.1

/-! ## Runs -/

theorem NoneStranded.step (h : s.Sound max) (hn : s.NoneStranded π) (hstep : s.step π e = some s')
    (hok : s.Sustains π e) : s'.NoneStranded π := by
  intro q hq
  rcases awaits_step h hstep hq with hold | hnew
  · exact (pending_step h hstep (hn q hold)).mpr (hok q hold)
  · exact .inl hnew

/-- A step that takes away what was to come leaves the receiver stranded. -/
theorem sustains_of_noneStranded (h : s.Sound max) (hn : s.NoneStranded π)
    (hstep : s.step π e = some s') (hn' : s'.NoneStranded π) : s.Sustains π e := by
  intro q hq hloses
  have hawaits : s'.Awaits q := by
    cases step_cases h.pool h.servers hstep with
    | asks _ _ _ => exact hloses.elim
    | receives hnot _ _ _ | serves hnot _ _ _ _ _ => exact absurd hloses (hnot q)
    | requested _ _ _ hclient _ _ | acked _ _ hclient _ _ =>
        rw [Awaits, hclient]
        exact hq
  exact (pending_step h hstep (hn q hq)).mp (hn' q hawaits) hloses

/-- No state of a run has a stranded receiver exactly if every step of it sustains what is
to come. -/
theorem noneStranded_iff {lines : List (Int × List UInt8)} {maxUp : PeerRef → Int}
    {es : List SwarmEvent} (hrun : Machine.run (step π) (start max lines maxUp) es = some s) :
    (∀ fs, fs <+: es → ∀ t : Swarm F, Machine.run (step π) (start max lines maxUp) fs = some t →
        t.NoneStranded π) ↔
      Machine.Along (step π) (Sustains π) (start max lines maxUp : Swarm F) es := by
  refine Machine.along_iff_good (I := fun t ↦ t.Sound max ∧ t.NoneStranded π) (fun _ h ↦ h.2) ?_ ?_
    hrun ⟨sound_start max lines maxUp, noneStranded_start π max lines maxUp⟩
  · exact fun _ _ _ h hstep hok ↦ ⟨h.1.step hstep, h.2.step h.1 hstep hok⟩
  · exact fun _ _ _ h hstep hn' ↦ sustains_of_noneStranded h.1 h.2 hstep hn'

end Swarm

/-! ## What `look_at` asks for -/

namespace Client

variable {c : Client} {max : Int}

/-- A chunk that is not finished has a holder. -/
def Fetchable (c : Client) : Prop :=
  ∃ r ∈ c.downChunks, (c.chunks r).cState ≠ .finished ∧ (c.chunks r).holders ≠ []

/-- The next `look_at` sends a GET. -/
def Asks (c : Client) : Prop := ∃ p down, c.lookAt.2 = [(p, c.getPKT down)]

/-- The first chunk of the queue that is not finished has a holder. -/
def HeadHeld (c : Client) : Prop :=
  ∃ r, c.downChunks.find? (fun r ↦ !decide ((c.chunks r).cState = .finished)) = some r ∧
    (c.chunks r).holders ≠ []

theorem asks_iff : c.Asks ↔ ∃ down p, c.Attaches down p := by
  constructor
  · rintro ⟨p, down, hsent⟩
    by_contra hnone
    have heq := lookAt_of_not_attaches (c := c) fun down p h ↦ hnone ⟨down, p, h⟩
    rw [heq] at hsent
    cases hsent
  · rintro ⟨down, p, h⟩
    obtain ⟨pool', -, heq⟩ := h.lookAt_eq
    refine ⟨p, down, ?_⟩
    rw [heq]
    rfl

/-- Only a chunk with holders replaces the one at the head, and only if that has more. -/
theorem holders_chooseChunkToDownload (store : ChunkStore) (first : ChunkRef) (queue : List ChunkRef) :
    (store (chooseChunkToDownload store first queue)).holders ≠ [] ↔ (store first).holders ≠ [] := by
  rw [chooseChunkToDownload]
  induction queue generalizing first with
  | nil => exact Iff.rfl
  | cons r queue ih =>
      rw [List.foldl_cons, ih]
      split
      · next hless =>
          refine iff_of_true hless.2 fun hnil ↦ ?_
          rw [hnil] at hless
          exact Nat.not_lt_zero _ hless.1
      · exact Iff.rfl

/-- Without receivers the first holder is picked. -/
theorem pickHolder_of_idle {pool : ReceiverPool} (hidle : ∀ q, getReceiver pool (some q) = none)
    {holders : List (Option PeerRef)} (hnull : none ∉ holders) :
    (∃ p, pickHolder pool none holders = some p) ↔ holders ≠ [] := by
  cases holders with
  | nil =>
      refine iff_of_false ?_ fun hne ↦ hne rfl
      rintro ⟨p, ⟨⟩⟩
  | cons h holders =>
      refine iff_of_true ?_ (List.cons_ne_nil _ _)
      cases h with
      | none => exact absurd (List.mem_cons_self ..) hnull
      | some p => exact ⟨p, if_pos (hidle p)⟩

/-- Without receivers a GET is sent exactly if there is room for one and the first chunk has
a holder. -/
theorem asks_iff_of_idle (hpool : c.receiverPool.Ok) (hlimit : c.receiverPool.maxNum = max)
    (hidle : ∀ q, getReceiver c.receiverPool (some q) = none)
    (hnull : ∀ ref, none ∉ (c.chunks ref).holders) : c.Asks ↔ 0 < max ∧ c.HeadHeld := by
  have hworkers : c.receiverPool.workers = [] := by
    rw [List.eq_nil_iff_forall_not_mem]
    intro r hr
    rw [mem_workers_iff hpool, hidle] at hr
    cases hr
  have hcount : c.receiverPool.curNum = 0 := by
    rw [hpool.counts, hworkers]
    rfl
  have hqueue : c.scanned.downChunks =
      c.downChunks.filter fun r ↦ !decide ((c.chunks r).cState = .finished) := by
    rw [scanned, scanChunkDone_eq]
  rw [asks_iff]
  constructor
  · rintro ⟨down, p, h⟩
    have hroom := h.room
    rw [hcount, hlimit] at hroom
    obtain ⟨first, rest, hfirst, rfl⟩ := h.chosen
    refine ⟨hroom, first, ?_, ?_⟩
    · rw [← List.head?_filter, ← hqueue, hfirst]
      rfl
    · rw [← holders_chooseChunkToDownload, ← pickHolder_of_idle hidle (hnull _)]
      exact ⟨p, h.holder⟩
  · rintro ⟨hroom, first, hfind, hheld⟩
    rw [← List.head?_filter, ← hqueue] at hfind
    obtain ⟨rest, hfirst⟩ := List.head?_eq_some_iff.mp hfind
    obtain ⟨p, hpick⟩ := (pickHolder_of_idle hidle (hnull _)).mpr
      ((holders_chooseChunkToDownload c.chunks first (first :: rest)).mpr hheld)
    refine ⟨_, p, ?_, ⟨first, rest, hfirst, rfl⟩, hpick, hidle p⟩
    rw [hcount, hlimit]
    exact hroom

end Client

namespace Swarm

variable {π : Setting} {s : Swarm F} {max : Int} {lines : List (Int × List UInt8)}
  {maxUp : PeerRef → Int}

/-- No packet is in flight, and no serving peer has an upload to the downloading one. -/
structure Quiescent (π : Setting) (s : Swarm F) : Prop where
  gets : ∀ p, s.gets p = []
  denied : ∀ p, s.denied p = []
  data : ∀ p, s.data p = []
  acks : ∀ p, s.acks p = []
  uploads : ∀ p, ¬ (s.servers p).HasUpload π.downloading

/-- A run that takes away nothing a receiver waits for, and a quiescent state at its end: if
there is a chunk to fetch the next `look_at` sends a GET, exactly if in that case `max_conn`
is positive and the first unfinished chunk has a holder. -/
theorem quiescent_asks_iff {es : List SwarmEvent}
    (hrun : Machine.run (step π) (start max lines maxUp) es = some s)
    (hsustains : Machine.Along (step π) (Sustains π) (start max lines maxUp : Swarm F) es)
    (hquiet : s.Quiescent π) :
    (s.client.Fetchable → s.client.Asks) ↔
      (s.client.Fetchable → 0 < max ∧ s.client.HeadHeld) := by
  have hsound : s.Sound max :=
    Machine.invariant (fun _ _ _ h hstep ↦ h.step hstep) hrun (sound_start max lines maxUp)
  have hn : s.NoneStranded π := (noneStranded_iff hrun).mpr hsustains es (List.prefix_refl es) s hrun
  have hidle : ∀ q, getReceiver s.client.receiverPool (some q) = none := by
    intro q
    by_contra hawaits
    rcases hn q hawaits with hget | hupload
    · exact hget (hquiet.gets q)
    · exact hquiet.uploads q hupload
  exact imp_congr_right fun _ ↦
    Client.asks_iff_of_idle hsound.pool hsound.limit hidle hsound.holders

/-! ## A chunk that nobody offers -/

/-- The downloading peer is number 1, and no peer's files hold anything. -/
def emptyHanded : Setting where
  downloading := 1
  shahash := Client.firstBytes
  getDataChunk _ _ := none

/-- An IHAVE packet that arrives first leaves nothing in flight. -/
theorem run_ihave (π : Setting) (max : Int) (lines : List (Int × List UInt8))
    (maxUp : PeerRef → Int) {pkt : Packet} {c : Client}
    (hc : (Client.start max lines).processIHAVE pkt (some 0) = some c) :
    ∃ s : Swarm F, Machine.run (step π) (start max lines maxUp) [.ihave 0 pkt] = some s ∧
      s.client = c ∧ s.Quiescent π := by
  refine ⟨{ (start max lines maxUp : Swarm F) with client := c }, ?_, rfl, ?_⟩
  · apply Machine.run_single
    exact congrArg (Option.map _) hc
  · exact ⟨fun _ ↦ rfl, fun _ ↦ rfl, fun _ ↦ rfl, fun _ ↦ rfl, fun _ hc ↦ hc rfl⟩

/-- One chunk, announced by one peer. -/
theorem quiescent_asks_iff_one : ∃ s : Swarm ℚ,
    Machine.run (step emptyHanded) (start 1 Client.zeroLine fun _ ↦ 1)
      [.ihave 0 Client.zeroIHAVE] = some s ∧ s.client.Fetchable ∧
    ((s.client.Fetchable → s.client.Asks) ↔
      (s.client.Fetchable → (0 : Int) < 1 ∧ s.client.HeadHeld)) := by
  have hihave : (Client.start 1 Client.zeroLine).processIHAVE Client.zeroIHAVE (some 0) = some _ := rfl
  obtain ⟨s, hrun, hclient, hquiet⟩ := run_ihave (F := ℚ) emptyHanded 1 Client.zeroLine (fun _ ↦ 1) hihave
  refine ⟨s, hrun, ?_, quiescent_asks_iff hrun ?_ hquiet⟩
  · rw [hclient]
    exact ⟨0, List.mem_singleton_self _, fun hc ↦ ChunkState.noConfusion hc, List.cons_ne_nil _ _⟩
  · exact ⟨fun _ _ hloses ↦ hloses, fun _ _ ↦ trivial⟩

/-- A chunk file with two lines, of which the second is announced: the first is chosen, and
has no holder. -/
theorem quiescent_not_asks : ¬ ∀ (π : Setting) (max : Int) (lines : List (Int × List UInt8))
    (maxUp : PeerRef → Int) (es : List SwarmEvent) (s : Swarm ℚ),
      Machine.run (step π) (start max lines maxUp) es = some s → s.Quiescent π →
      s.client.Fetchable → s.client.Asks := by
  intro h
  let lines := (1, sha1Array (List.replicate 40 49)) :: Client.zeroLine
  have hihave : (Client.start 1 lines).processIHAVE Client.zeroIHAVE (some 0) = some _ := rfl
  obtain ⟨s, hrun, hclient, hquiet⟩ := run_ihave (F := ℚ) emptyHanded 1 lines (fun _ ↦ 1) hihave
  have hasks := h emptyHanded 1 lines _ _ s hrun hquiet
  rw [hclient] at hasks
  obtain ⟨p, down, hsent⟩ := hasks ⟨1, List.mem_cons_of_mem _ (List.mem_singleton_self _),
    fun hc ↦ ChunkState.noConfusion hc, List.cons_ne_nil _ _⟩
  cases hsent

end Swarm

end BitTorrent
