import Mathlib.Data.List.Dedup
import BitTorrent.Download.Finished

/-!
# Holders

After a number of IHAVE packets the holders of a chunk are meant to be the peers that
announced it, each once, in the order they first did.  `add_holder` appends whatever is
announced to the first chunk with the hash: a peer that lists a hash twice is entered twice,
and of two chunks with one hash the second never gets a holder.
-/

namespace BitTorrent

/-! ## What is announced -/

/-- An IHAVE packet and the peer it comes from. -/
abbrev Announcement := Packet × PeerRef

/-- The hash texts an IHAVE packet lists. -/
def listed (pkt : Packet) : List (List UInt8) :=
  ((pkt2chunks pkt .ihave).getD []).map ChunkT.hash

/-- The peers that list a hash, once for every time they do. -/
def mentions (hash : List UInt8) (seq : List Announcement) : List PeerRef :=
  seq.flatMap fun a ↦ List.replicate ((listed a.1).count hash) a.2

/-- The peers that list a hash, each once, in the order they first do. -/
def announcers (hash : List UInt8) (seq : List Announcement) : List PeerRef :=
  ((seq.filter fun a ↦ hash ∈ listed a.1).map Prod.snd).reverse.dedup.reverse

variable {hash : List UInt8} {seq : List Announcement} {a : Announcement}

theorem nodup_announcers : (announcers hash seq).Nodup :=
  List.nodup_reverse.mpr (List.nodup_dedup _)

theorem mentions_cons (hash : List UInt8) (a : Announcement) (seq : List Announcement) :
    mentions hash (a :: seq) =
      List.replicate ((listed a.1).count hash) a.2 ++ mentions hash seq := List.flatMap_cons

/-- A hash is mentioned if some packet lists it. -/
theorem mentions_eq_nil_iff : mentions hash seq = [] ↔ ∀ a ∈ seq, hash ∉ listed a.1 := by
  simp [mentions, List.flatMap_eq_nil_iff, List.count_eq_zero]

theorem announcers_eq_nil_iff : announcers hash seq = [] ↔ ∀ a ∈ seq, hash ∉ listed a.1 := by
  rw [announcers, List.reverse_eq_nil_iff, List.dedup_eq_nil, List.reverse_eq_nil_iff,
    List.map_eq_nil_iff, List.filter_eq_nil_iff]
  simp

/-- Without repetition the mentions are one for each packet that lists the hash. -/
theorem mentions_eq_map (h : (mentions hash seq).Nodup) :
    mentions hash seq = (seq.filter fun a ↦ hash ∈ listed a.1).map Prod.snd := by
  induction seq with
  | nil => rfl
  | cons a seq ih =>
      rw [mentions_cons] at h ⊢
      obtain ⟨hfirst, hrest, -⟩ := List.nodup_append.mp h
      rw [ih hrest]
      by_cases hmem : hash ∈ listed a.1
      · have hone : (listed a.1).count hash = 1 :=
          Nat.le_antisymm (List.nodup_replicate.mp hfirst) (List.count_pos_iff.mpr hmem)
        rw [hone, List.filter_cons_of_pos (by simpa using hmem), List.map_cons]
        rfl
      · rw [List.count_eq_zero.mpr hmem, List.filter_cons_of_neg (by simpa using hmem)]
        rfl

/-- The mentions are the announcers exactly if no peer lists the hash twice. -/
theorem mentions_eq_announcers_iff :
    mentions hash seq = announcers hash seq ↔ (mentions hash seq).Nodup := by
  constructor
  · intro h
    rw [h]
    exact nodup_announcers
  · intro h
    have heq := mentions_eq_map h
    rw [announcers, ← heq, (List.nodup_reverse.mpr h).dedup, List.reverse_reverse]

namespace Client

variable {shahash : List UInt8 → List UInt8} {c c' : Client} {r : ChunkRef}

/-! ## What is entered -/

/-- The chunk is the first one in the queue with its hash. -/
def IsFirst (c : Client) (r : ChunkRef) : Prop :=
  containsChunk c.chunks c.downChunks (c.chunks r).hash = some r

instance (c : Client) (r : ChunkRef) : Decidable (c.IsFirst r) :=
  inferInstanceAs (Decidable (_ = _))

/-- A chunk that is found by a hash is the first with that hash, which is its own. -/
theorem containsChunk_eq_some {hash : List UInt8}
    (h : containsChunk c.chunks c.downChunks hash = some r) :
    r ∈ c.downChunks ∧ (c.chunks r).hash = hash ∧ c.IsFirst r := by
  have hfind : (c.downChunks.find? fun r ↦ hash == (c.chunks r).hash) = some r := h
  have hbeq := List.find?_some hfind
  have hhash : hash = (c.chunks r).hash := eq_of_beq hbeq
  refine ⟨List.mem_of_find?_eq_some hfind, hhash.symm, ?_⟩
  rw [IsFirst, ← hhash]
  exact h

/-- For every chunk of the queue there is a first one with its hash. -/
theorem exists_isFirst (h : r ∈ c.downChunks) :
    ∃ r', containsChunk c.chunks c.downChunks (c.chunks r).hash = some r' := by
  rw [← Option.isSome_iff_exists, containsChunk, List.find?_isSome]
  exact ⟨r, h, by simp⟩

/-- A packet is entered as often as it lists the hash, for the first chunk that has it. -/
theorem countP_containsChunk (c : Client) (r : ChunkRef) (iHave : List ChunkT) :
    (iHave.countP fun x ↦ containsChunk c.chunks c.downChunks x.hash = some r) =
      if c.IsFirst r then (iHave.map ChunkT.hash).count (c.chunks r).hash else 0 := by
  split
  · next hfirst =>
      rw [List.count, List.countP_map]
      refine List.countP_congr fun x _ ↦ ?_
      simp only [decide_eq_true_eq, Function.comp_apply, beq_iff_eq]
      constructor
      · exact fun h ↦ (containsChunk_eq_some h).2.1.symm
      · rintro h
        rw [h]
        exact hfirst
  · next hlater =>
      rw [List.countP_eq_zero]
      intro x _ h
      exact hlater (containsChunk_eq_some (of_decide_eq_true h)).2.2

/-- The events of a sequence of announcements. -/
def announce (seq : List Announcement) : List DownloadEvent :=
  seq.map fun a ↦ .ihave a.1 (some a.2)

/-- What announcements leave alone. -/
structure Announced (c c' : Client) : Prop where
  down : c'.downChunks = c.downChunks
  sha1 : ∀ r, (c'.chunks r).sha1 = (c.chunks r).sha1

theorem Announced.hash_eq (h : c.Announced c') (r : ChunkRef) :
    (c'.chunks r).hash = (c.chunks r).hash := by
  rw [ChunkT.hash, h.sha1, ChunkT.hash]

/-- The first chunks with their hashes stay the same. -/
theorem Announced.isFirst_iff (h : c.Announced c') : c'.IsFirst r ↔ c.IsFirst r := by
  rw [IsFirst, IsFirst, h.down, h.hash_eq, containsChunk_congr h.sha1]

/-- An announcement enters its sender once for every mention of the hash, at the first chunk
that has it. -/
theorem holders_announcement {pkt : Packet} {peer : PeerRef}
    (h : c.processIHAVE pkt (some peer) = some c') :
    c.Announced c' ∧ ∀ r, (c'.chunks r).holders = (c.chunks r).holders ++
      if c.IsFirst r then List.replicate ((listed pkt).count (c.chunks r).hash) (some peer)
      else [] := by
  obtain ⟨hsame, hdown, -, -⟩ := processIHAVE_frame h
  refine ⟨⟨hdown, hsame.sha1⟩, fun r ↦ ?_⟩
  obtain ⟨iHave, hpkt, -⟩ := Option.map_eq_some_iff.mp h
  rw [holders_processIHAVE hpkt h, countP_containsChunk, listed, hpkt, Option.getD_some]
  split
  · rfl
  · rfl

/-- After a sequence of announcements the first chunk with a hash has every mention of it as a
holder, and any other chunk none. -/
theorem holders_run (hrun : Machine.run (step shahash) c (announce seq) = some c') :
    c.Announced c' ∧ ∀ r, (c'.chunks r).holders = (c.chunks r).holders ++
      if c.IsFirst r then (mentions (c.chunks r).hash seq).map some else [] := by
  induction seq generalizing c with
  | nil =>
      cases hrun
      refine ⟨⟨rfl, fun _ ↦ rfl⟩, fun r ↦ ?_⟩
      simp [mentions]
  | cons a seq ih =>
      obtain ⟨c₁, hstep, hrest⟩ := Machine.run_cons_eq_some.mp hrun
      obtain ⟨hfirst, hholders⟩ := holders_announcement hstep
      obtain ⟨hann, hall⟩ := ih hrest
      refine ⟨⟨hann.down.trans hfirst.down, fun r ↦ (hann.sha1 r).trans (hfirst.sha1 r)⟩, ?_⟩
      intro r
      rw [hall, hholders, hfirst.hash_eq, List.append_assoc]
      simp only [hfirst.isFirst_iff]
      split
      · rw [mentions_cons, List.map_append, List.map_replicate]
      · rfl

/-- A packet that was processed can be processed again. -/
theorem exists_processIHAVE_of_run {d : Client} {a : Announcement} (ha : a ∈ seq)
    (hrun : Machine.run (step shahash) c (announce seq) = some c') :
    ∃ d', d.processIHAVE a.1 (some a.2) = some d' := by
  induction seq generalizing c with
  | nil => cases ha
  | cons b seq ih =>
      obtain ⟨c₁, hstep, hrest⟩ := Machine.run_cons_eq_some.mp hrun
      rcases List.mem_cons.mp ha with rfl | ha
      · obtain ⟨iHave, hpkt, -⟩ := Option.map_eq_some_iff.mp hstep
        rw [processIHAVE, hpkt]
        exact ⟨_, rfl⟩
      · exact ih ha hrest

/-! ## What is meant to be entered -/

/-- Each chunk of the queue has the peers that announced it as holders. -/
def HoldersRight (c c' : Client) (seq : List Announcement) : Prop :=
  ∀ r ∈ c.downChunks, (c'.chunks r).holders = (announcers (c.chunks r).hash seq).map some

/-- Processing the packets again changes nothing. -/
def Settled (c : Client) (seq : List Announcement) : Prop :=
  ∀ a ∈ seq, c.processIHAVE a.1 (some a.2) = some c

/-- A packet lists the hash. -/
def IsAnnounced (hash : List UInt8) (seq : List Announcement) : Prop :=
  ∃ a ∈ seq, hash ∈ listed a.1

theorem not_isAnnounced_iff : ¬ IsAnnounced hash seq ↔ ∀ a ∈ seq, hash ∉ listed a.1 := by
  simp [IsAnnounced]

/-- A chunk has the right holders if it was not announced, or if it is the first with its hash
and no peer announced it twice. -/
theorem holders_eq_announcers_iff (hrun : Machine.run (step shahash) c (announce seq) = some c')
    (hnone : (c.chunks r).holders = []) :
    (c'.chunks r).holders = (announcers (c.chunks r).hash seq).map some ↔
      (IsAnnounced (c.chunks r).hash seq →
        c.IsFirst r ∧ (mentions (c.chunks r).hash seq).Nodup) := by
  have hinj : Function.Injective (List.map (some : PeerRef → Option PeerRef)) :=
    List.map_injective_iff.mpr (Option.some_injective _)
  rw [(holders_run hrun).2, hnone, List.nil_append]
  by_cases hann : IsAnnounced (c.chunks r).hash seq
  · rw [imp_iff_right hann]
    split
    · next hfirst =>
        rw [hinj.eq_iff, mentions_eq_announcers_iff]
        exact (and_iff_right hfirst).symm
    · next hlater =>
        refine iff_of_false (fun h ↦ ?_) fun h ↦ hlater h.1
        rw [eq_comm, List.map_eq_nil_iff, announcers_eq_nil_iff] at h
        exact not_isAnnounced_iff.mpr h hann
  · have hmem := not_isAnnounced_iff.mp hann
    rw [announcers_eq_nil_iff.mpr hmem, mentions_eq_nil_iff.mpr hmem]
    simp [hann]

/-- Only one of the chunks that have a hash is the first. -/
theorem isFirst_iff_alone {P : List UInt8 → Prop} :
    (∀ r ∈ c.downChunks, P (c.chunks r).hash → c.IsFirst r) ↔
      ∀ r ∈ c.downChunks, P (c.chunks r).hash →
        ∀ r' ∈ c.downChunks, (c.chunks r').hash = (c.chunks r).hash → r' = r := by
  constructor
  · intro h r hr hP r' hr' hhash
    have hfirst := h r' hr' (hhash ▸ hP)
    rw [IsFirst, hhash, h r hr hP, Option.some.injEq] at hfirst
    exact hfirst.symm
  · intro h r hr hP
    obtain ⟨r', hfound⟩ := exists_isFirst hr
    obtain ⟨hr', hhash, -⟩ := containsChunk_eq_some hfound
    rw [h r hr hP r' hr' hhash] at hfound
    exact hfound

attribute [ext] ChunkT Client

/-- A packet changes nothing exactly if it lists no hash of the queue. -/
theorem processIHAVE_eq_self_iff {pkt : Packet} {peer : PeerRef}
    (h : c.processIHAVE pkt (some peer) = some c') :
    c' = c ↔ ∀ r ∈ c.downChunks, (c.chunks r).hash ∉ listed pkt := by
  obtain ⟨hsame, hdown, hdone, hpool⟩ := processIHAVE_frame h
  obtain ⟨-, hholders⟩ := holders_announcement h
  constructor
  · rintro rfl r hr hmem
    obtain ⟨r', hfound⟩ := exists_isFirst hr
    obtain ⟨-, hhash, hfirst⟩ := containsChunk_eq_some hfound
    have hgrow := hholders r'
    rw [if_pos hfirst, List.self_eq_append_right, List.replicate_eq_nil_iff, hhash] at hgrow
    exact List.count_eq_zero.mp hgrow hmem
  · intro hnone
    ext r
    · exact hsame.id r
    · rw [hsame.sha1]
    · exact hsame.cState r
    · rw [hholders]
      split
      · next hfirst =>
        have hr := (containsChunk_eq_some hfirst).1
        rw [List.count_eq_zero.mpr (hnone r hr), List.replicate_zero, List.append_nil]
      · rw [List.append_nil]
    · rw [hsame.data]
    · rw [hdown]
    · rw [hdone]
    · exact hpool

/-- After the announcements each chunk of the queue has the peers that announced it as holders,
each once and in the order they first did, exactly if no two chunks of the queue have one
announced hash, and no peer lists a hash of the queue twice.  Processing the packets again then
changes nothing exactly if none of them lists a hash of the queue. -/
theorem holders_announcers_iff (hnone : ∀ r ∈ c.downChunks, (c.chunks r).holders = [])
    (hrun : Machine.run (step shahash) c (announce seq) = some c') :
    (c.HoldersRight c' seq ↔
      (∀ r ∈ c.downChunks, IsAnnounced (c.chunks r).hash seq →
        ∀ r' ∈ c.downChunks, (c.chunks r').hash = (c.chunks r).hash → r' = r) ∧
      ∀ r ∈ c.downChunks, (mentions (c.chunks r).hash seq).Nodup) ∧
    (c'.Settled seq ↔ ∀ r ∈ c.downChunks, ¬ IsAnnounced (c.chunks r).hash seq) := by
  constructor
  · rw [← isFirst_iff_alone (P := fun hash ↦ IsAnnounced hash seq), ← forall₂_and]
    refine forall₂_congr fun r hr ↦ ?_
    rw [holders_eq_announcers_iff hrun (hnone r hr)]
    constructor
    · intro h
      refine ⟨fun hann ↦ (h hann).1, ?_⟩
      by_cases hann : IsAnnounced (c.chunks r).hash seq
      · exact (h hann).2
      · rw [mentions_eq_nil_iff.mpr (not_isAnnounced_iff.mp hann)]
        exact List.nodup_nil
    · exact fun h hann ↦ ⟨h.1 hann, h.2⟩
  · have hframe := (holders_run hrun).1
    have hagain : ∀ a ∈ seq, c'.processIHAVE a.1 (some a.2) = some c' ↔
        ∀ r ∈ c.downChunks, (c.chunks r).hash ∉ listed a.1 := by
      intro a ha
      obtain ⟨d, hd⟩ := exists_processIHAVE_of_run (d := c') ha hrun
      rw [hd, Option.some.injEq, processIHAVE_eq_self_iff hd, hframe.down]
      simp only [hframe.hash_eq]
    rw [Settled, forall₂_congr hagain]
    simp only [not_isAnnounced_iff]
    exact ⟨fun h r hr a ha ↦ h a ha r hr, fun h a ha r hr ↦ h r hr a ha⟩

/-- One announcement of a chunk. -/
theorem holders_announcers_iff_one : ∃ c,
    Machine.run (step firstBytes) (start 2 zeroLine) (announce [(zeroIHAVE, 0)]) = some c ∧
    ((start 2 zeroLine).HoldersRight c [(zeroIHAVE, 0)] ↔
      (∀ r ∈ (start 2 zeroLine).downChunks,
        IsAnnounced ((start 2 zeroLine).chunks r).hash [(zeroIHAVE, 0)] →
        ∀ r' ∈ (start 2 zeroLine).downChunks,
          ((start 2 zeroLine).chunks r').hash = ((start 2 zeroLine).chunks r).hash → r' = r) ∧
      ∀ r ∈ (start 2 zeroLine).downChunks,
        (mentions ((start 2 zeroLine).chunks r).hash [(zeroIHAVE, 0)]).Nodup) := by
  have hrun : Machine.run (step firstBytes) (start 2 zeroLine) (announce [(zeroIHAVE, 0)]) =
      some _ := rfl
  exact ⟨_, hrun, (holders_announcers_iff (fun r _ ↦ holders_start 2 zeroLine r) hrun).1⟩

/-- A peer that announces the chunk twice is entered twice. -/
theorem not_holders_announcers :
    ¬ ∀ (shahash : List UInt8 → List UInt8) (c c' : Client) (seq : List Announcement),
      (∀ r ∈ c.downChunks, (c.chunks r).holders = []) →
      Machine.run (step shahash) c (announce seq) = some c' → c.HoldersRight c' seq ∧ c'.Settled seq := by
  intro h
  obtain ⟨c, hrun, htwice⟩ : ∃ c, Machine.run (step firstBytes) (start 2 zeroLine)
      (announce [(zeroIHAVE, 0), (zeroIHAVE, 0)]) = some c ∧
      (c.chunks 0).holders = [some 0, some 0] := ⟨_, rfl, rfl⟩
  have hright := (h firstBytes _ c _ (fun r _ ↦ holders_start 2 zeroLine r) hrun).1 0
    (List.mem_singleton.mpr rfl)
  rw [htwice] at hright
  have hnodup : [some 0, some 0].Nodup :=
    hright ▸ nodup_announcers.map (Option.some_injective PeerRef)
  simp at hnodup

end Client

end BitTorrent
