import Mathlib.Data.List.Flatten
import BitTorrent.Handler.Download
import BitTorrent.Handler.Upload
import BitTorrent.Library.Keyed
import BitTorrent.Library.Malloc
import BitTorrent.Library.Run

/-!
# Who frees what

`free_queue` frees the elements of a queue together with the queue, and `free_chunk` the holders
of a chunk together with the chunk.  `which_i_have` enters a chunk once for every time its hash
was asked for, and the holders of a chunk are the peers of `config.peers`.

The functions are those of `tracker.c` and `handler.c` with the objects they allocate.  Nodes of
a queue are left out: `dequeue` frees each exactly when it leaves its queue.
-/

namespace BitTorrent

namespace Memory

open Malloc

/-- An object: allocated, or one of `config.peers`. -/
abbrev Object := Obj PeerRef

/-- A `chunk_t`: its record, and the objects it and its queue of holders are. -/
structure ChunkPtr where
  self : Object
  holders : Object
  record : ChunkT

variable {h h' : Heap PeerRef} {shahash : List UInt8 → List UInt8}

/-! ## Freeing -/

/-- `free_queue` -/
def freeQueue (h : Heap PeerRef) (queue : Object) (data : List (Option Object)) : Heap PeerRef :=
  (data.foldl Heap.free h).free (some queue)

/-- `free_chunk` -/
def freeChunk (h : Heap PeerRef) (c : ChunkPtr) : Heap PeerRef :=
  (freeQueue h c.holders (c.record.holders.map (·.map Obj.other))).free (some c.self)

/-! ## Allocating -/

/-- A cleared `chunk_t` with `init_chunk` called on it, which allocates a queue of holders. -/
def newChunk (h : Heap PeerRef) (record : ChunkT) : ChunkPtr × Heap PeerRef :=
  let (self, h) := h.malloc
  let (holders, h) := h.malloc
  ({ self := self, holders := holders, record := record }, h)

/-- The chunks of `pkt2chunks` and of `list_chunks`, one after another. -/
def newChunks (h : Heap PeerRef) : List ChunkT → List ChunkPtr × Heap PeerRef
  | [] => ([], h)
  | record :: records =>
      let (c, h) := newChunk h record
      let (cs, h) := newChunks h records
      (c :: cs, h)

/-- `list_chunks`: `records` is what the file holds, if it can be opened. -/
def listChunks (h : Heap PeerRef) (records : Option (List ChunkT)) :
    Option (List ChunkPtr) × Heap PeerRef :=
  match records with
  | none => (none, h)
  | some records =>
      let (_, h) := h.malloc
      let (cs, h) := newChunks h records
      (some cs, h)

/-- The packets of `chunks2pkts`: for each one its hash list, the buffer for a hash and the
packet itself. -/
def newPackets (h : Heap PeerRef) : List Packet → List (Object × Packet) × Heap PeerRef
  | [] => ([], h)
  | pkt :: pkts =>
      let (_, h) := h.malloc
      let (_, h) := h.malloc
      let (self, h) := h.malloc
      let (ptrs, h) := newPackets h pkts
      ((self, pkt) :: ptrs, h)

/-! ## The functions -/

/-- The chunks `which_i_have` enters: those of the file, as often as they are found. -/
def whichIHave (chunks : Option (List ChunkPtr)) (whoHas : List ChunkPtr) : List ChunkPtr :=
  whoHas.filterMap fun w ↦ chunks.bind fun cs ↦ cs.find? fun c ↦ w.record.hash == c.record.hash

/-- The reply of `process_WHOHAS`, with the packet it sends. -/
def reply (h : Heap PeerRef) (iHaveQueue : Object) (iHave : List ChunkPtr) :
    Heap PeerRef × Option Packet :=
  if iHave.isEmpty then (h, none)
  else
    let (pktQueue, h) := h.malloc
    let (pkts, h) := newPackets h ((chunks2pkts (iHave.map ChunkPtr.record) .ihave).getD [])
    let h := freeQueue h pktQueue (pkts.tail.map fun p ↦ some p.1)
    (freeQueue h iHaveQueue (iHave.map fun c ↦ some c.self), pkts.head?.map Prod.snd)

/-- `process_WHOHAS` -/
def processWHOHAS (h : Heap PeerRef) (hasChunks : Option (List ChunkT)) (pkt : Packet) :
    Option (Heap PeerRef × Option Packet) :=
  (pkt2chunks pkt .whohas).map fun whoHas ↦
    let (whoHasQueue, h) := h.malloc
    let (whoHas, h) := newChunks h whoHas
    let (chunks, h) := listChunks h hasChunks
    let (iHaveQueue, h) := h.malloc
    let (h, sent) := reply h iHaveQueue (whichIHave chunks whoHas)
    (freeQueue h whoHasQueue (whoHas.map fun c ↦ some c.self), sent)

/-- The loop of `chunks2file`, with what it leaves in the queue: a chunk that fails its check is
taken out, but not freed. -/
def chunks2fileLoop (shahash : List UInt8 → List UInt8) (h : Heap PeerRef) :
    List ChunkPtr → List ChunkPtr × Heap PeerRef
  | [] => ([], h)
  | c :: done =>
      if checkChunk shahash c.record.data c.record.sha1 then
        chunks2fileLoop shahash (freeChunk h c) done
      else (done, h)

/-- `chunks2file` at the end of a download: `process_download` has allocated the queues and a
chunk for each of `records`, which are those of `done_chunks`. -/
def chunks2file (shahash : List UInt8 → List UInt8) (h : Heap PeerRef) (records : List ChunkT) :
    Heap PeerRef :=
  let (downQueue, h) := h.malloc
  let (done, h) := newChunks h records
  let (doneQueue, h) := h.malloc
  if done.isEmpty then h
  else
    let (done, h) := chunks2fileLoop shahash h done
    freeQueue (freeQueue h downQueue []) doneQueue (done.map fun c ↦ some c.self)

/-! ## What is freed -/

theorem freeQueue_eq (h : Heap PeerRef) (queue : Object) (data : List (Option Object)) :
    freeQueue h queue data = { h with freed := h.freed ++ (data.reduceOption ++ [queue]) } := by
  rw [freeQueue, Heap.foldl_free, Heap.free, List.append_assoc]

/-- Pointers that are not `NULL`. -/
theorem reduceOption_map_some {β : Type} (l : List β) (f : β → Object) :
    (l.map fun x ↦ some (f x)).reduceOption = l.map f := by
  induction l with
  | nil => rfl
  | cons x l ih => rw [List.map_cons, List.reduceOption_cons_of_some, ih, List.map_cons]

/-- What `free_chunk` frees. -/
def ChunkPtr.parts (c : ChunkPtr) : List Object :=
  (c.record.holders.map (·.map Obj.other)).reduceOption ++ [c.holders, c.self]

theorem freeChunk_eq (h : Heap PeerRef) (c : ChunkPtr) :
    freeChunk h c = { h with freed := h.freed ++ c.parts } := by
  rw [freeChunk, freeQueue_eq, Heap.free, ChunkPtr.parts]
  simp only [List.append_assoc, List.singleton_append]

/-- The record is one that `chunks2file` writes. -/
def Right (shahash : List UInt8 → List UInt8) (record : ChunkT) : Bool :=
  checkChunk shahash record.data record.sha1

theorem chunks2fileLoop_eq (h : Heap PeerRef) (done : List ChunkPtr) :
    chunks2fileLoop shahash h done =
      ((done.dropWhile (Right shahash ∘ ChunkPtr.record)).tail,
        { h with
          freed := h.freed ++
            (done.takeWhile (Right shahash ∘ ChunkPtr.record)).flatMap ChunkPtr.parts }) := by
  induction done generalizing h with
  | nil => simp [chunks2fileLoop]
  | cons c done ih =>
      rw [chunks2fileLoop]
      by_cases hc : checkChunk shahash c.record.data c.record.sha1 = true
      · rw [if_pos hc, ih, freeChunk_eq,
          List.dropWhile_cons_of_pos (p := Right shahash ∘ ChunkPtr.record) hc,
          List.takeWhile_cons_of_pos (p := Right shahash ∘ ChunkPtr.record) hc, List.flatMap_cons,
          List.append_assoc]
      · rw [if_neg hc, List.dropWhile_cons_of_neg (p := Right shahash ∘ ChunkPtr.record) hc,
          List.takeWhile_cons_of_neg (p := Right shahash ∘ ChunkPtr.record) hc, List.flatMap_nil,
          List.append_nil]
        rfl

/-! ## What is allocated -/

/-- The objects of a chunk. -/
def ChunkPtr.objects (c : ChunkPtr) : List Object := [c.holders, c.self]

theorem newChunks_spec (h : Heap PeerRef) (records : List ChunkT) :
    (newChunks h records).1.map ChunkPtr.record = records ∧
      (newChunks h records).2.freed = h.freed ∧
      Fresh h.next (newChunks h records).2.next ((newChunks h records).1.flatMap ChunkPtr.objects) := by
  induction records generalizing h with
  | nil => exact ⟨rfl, rfl, .nil (Nat.le_refl _)⟩
  | cons record records ih =>
      obtain ⟨hrecords, hfreed, hfresh⟩ := ih (newChunk h record).2
      refine ⟨congrArg (record :: ·) hrecords, hfreed, ?_⟩
      have hfirst : Fresh h.next (newChunk h record).2.next (newChunk h record).1.objects :=
        ((Fresh.malloc h).append (Fresh.malloc h.malloc.2)).perm (.swap _ _ _)
      exact hfirst.append hfresh

/-- The chunks by themselves. -/
theorem sublist_objects (cs : List ChunkPtr) :
    (cs.map ChunkPtr.self).Sublist (cs.flatMap ChunkPtr.objects) := by
  induction cs with
  | nil => exact .slnil
  | cons c cs ih =>
      rw [List.map_cons, List.flatMap_cons]
      exact ((List.Sublist.refl [c.self]).cons c.holders).append ih

theorem newPackets_spec (h : Heap PeerRef) (pkts : List Packet) :
    (newPackets h pkts).1.map Prod.snd = pkts ∧ (newPackets h pkts).2.freed = h.freed ∧
      Fresh h.next (newPackets h pkts).2.next ((newPackets h pkts).1.map Prod.fst) := by
  induction pkts generalizing h with
  | nil => exact ⟨rfl, rfl, .nil (Nat.le_refl _)⟩
  | cons pkt pkts ih =>
      let h₂ := h.malloc.2.malloc.2
      obtain ⟨hpkts, hfreed, hfresh⟩ := ih h₂.malloc.2
      refine ⟨congrArg (pkt :: ·) hpkts, hfreed, ?_⟩
      have hskip : Fresh h.next h₂.next ([] : List Object) := .nil (Nat.le_add_right _ 2)
      exact (hskip.append (Fresh.malloc h₂)).append hfresh

theorem listChunks_spec (h : Heap PeerRef) (records : Option (List ChunkT)) :
    (listChunks h records).1.map (·.map ChunkPtr.record) = records ∧
      (listChunks h records).2.freed = h.freed ∧
      Fresh h.next (listChunks h records).2.next
        (((listChunks h records).1.getD []).flatMap ChunkPtr.objects) := by
  cases records with
  | none => exact ⟨rfl, rfl, .nil (Nat.le_refl _)⟩
  | some records =>
      obtain ⟨hrecords, hfreed, hfresh⟩ := newChunks_spec h.malloc.2 records
      have hskip : Fresh h.next h.malloc.2.next ([] : List Object) := .nil (Nat.le_succ _)
      exact ⟨congrArg some hrecords, hfreed, hskip.append hfresh⟩

/-! ## The packet of `process_WHOHAS` -/

/-- The records are those of the function without objects. -/
theorem record_whichIHave (chunks : Option (List ChunkPtr)) (whoHas : List ChunkPtr) :
    (whichIHave chunks whoHas).map ChunkPtr.record =
      BitTorrent.whichIHave (chunks.map (·.map ChunkPtr.record)) (whoHas.map ChunkPtr.record) := by
  rw [whichIHave, BitTorrent.whichIHave, List.map_filterMap, List.filterMap_map]
  apply List.filterMap_congr
  intro w _
  cases chunks with
  | none => rfl
  | some cs =>
      show (cs.find? _).map ChunkPtr.record = (cs.map ChunkPtr.record).find? _
      rw [List.find?_map]
      rfl

/-- So is the packet it sends. -/
theorem sent_processWHOHAS (h : Heap PeerRef) (hasChunks : Option (List ChunkT)) (pkt : Packet)
    (peer : Option PeerRef) :
    ((processWHOHAS h hasChunks pkt).map fun out ↦ out.2.toList.flatMap (Server.sendPKT peer)) =
      Server.processWHOHAS hasChunks pkt peer := by
  rw [processWHOHAS, Server.processWHOHAS, Option.map_map]
  refine congrArg (Option.map · _) (funext fun whoHas ↦ ?_)
  obtain ⟨hwho, -, -⟩ := newChunks_spec h.malloc.2 whoHas
  let h₂ := (newChunks h.malloc.2 whoHas).2
  obtain ⟨hhas, -, -⟩ := listChunks_spec h₂ hasChunks
  have hrecord := record_whichIHave (listChunks h₂ hasChunks).1 (newChunks h.malloc.2 whoHas).1
  rw [hhas, hwho] at hrecord
  simp only [Function.comp_apply]
  show (reply (listChunks h₂ hasChunks).2.malloc.2 _
    (whichIHave (listChunks h₂ hasChunks).1 (newChunks h.malloc.2 whoHas).1)).2.toList.flatMap _ = _
  rw [reply, ← hrecord, List.isEmpty_map]
  split
  · rfl
  · simp only [← List.head?_map, (newPackets_spec _ _).1]
    cases chunks2pkts _ _ with
    | none => rfl
    | some pkts => rfl

/-! ## Chunks asked for once -/

/-- No chunk of the file is asked for twice. -/
def AskedOnce (hasChunks : Option (List ChunkT)) (whoHas : List ChunkT) : Prop :=
  ((whoHas.map ChunkT.hash).filter fun x ↦ (hasChunks.getD []).any fun c ↦ x == c.hash).Nodup

/-- The chunk of the file that a hash finds. -/
def findHash (chunks : Option (List ChunkPtr)) (x : List UInt8) : Option ChunkPtr :=
  chunks.bind fun cs ↦ cs.find? fun c ↦ x == c.record.hash

theorem findHash_eq_some {chunks : Option (List ChunkPtr)} {x : List UInt8} {c : ChunkPtr}
    (h : findHash chunks x = some c) : c ∈ chunks.getD [] ∧ c.record.hash = x := by
  obtain ⟨cs, rfl, hfind⟩ := Option.bind_eq_some_iff.mp h
  have hbeq := List.find?_some hfind
  have hhash : x = c.record.hash := eq_of_beq hbeq
  exact ⟨List.mem_of_find?_eq_some hfind, hhash.symm⟩

theorem isSome_findHash {chunks : Option (List ChunkPtr)} {x : List UInt8} :
    (findHash chunks x).isSome =
      ((chunks.map (·.map ChunkPtr.record)).getD []).any fun c ↦ x == c.hash := by
  cases chunks with
  | none => rfl
  | some cs =>
      show (cs.find? _).isSome = (cs.map ChunkPtr.record).any _
      rw [List.any_map, Bool.eq_iff_iff, List.find?_isSome, List.any_eq_true]
      rfl

/-- What is entered are different objects exactly if no chunk is asked for twice. -/
theorem nodup_whichIHave {chunks : Option (List ChunkPtr)}
    (h : ((chunks.getD []).map ChunkPtr.self).Nodup) (whoHas : List ChunkPtr) :
    ((whichIHave chunks whoHas).map ChunkPtr.self).Nodup ↔
      AskedOnce (chunks.map (·.map ChunkPtr.record)) (whoHas.map ChunkPtr.record) := by
  have hentered : (whichIHave chunks whoHas).map ChunkPtr.self =
      (whoHas.map fun w ↦ w.record.hash).filterMap fun x ↦ (findHash chunks x).map ChunkPtr.self := by
    rw [whichIHave, List.map_filterMap, List.filterMap_map]
    rfl
  have hinj : ∀ x y o, (findHash chunks x).map ChunkPtr.self = some o →
      (findHash chunks y).map ChunkPtr.self = some o → x = y := by
    intro x y o hx hy
    obtain ⟨c, hc, rfl⟩ := Option.map_eq_some_iff.mp hx
    obtain ⟨c', hc', heq⟩ := Option.map_eq_some_iff.mp hy
    obtain ⟨hmem, hhash⟩ := findHash_eq_some hc
    obtain ⟨hmem', hhash'⟩ := findHash_eq_some hc'
    rw [← hhash, ← hhash', List.inj_on_of_nodup_map h hmem' hmem heq]
  rw [hentered, Keyed.nodup_filterMap_iff hinj, AskedOnce, List.map_map]
  simp only [Option.isSome_map, isSome_findHash]
  rfl

/-! ## One packet, one download -/

/-- The reply frees what it has allocated, and the queue of chunks with its elements. -/
theorem reply_spec (h : Heap PeerRef) (iHaveQueue : Object) (iHave : List ChunkPtr) :
    ∃ pkts queue, Fresh h.next (reply h iHaveQueue iHave).1.next pkts ∧
      queue.Sublist [iHaveQueue] ∧
      (reply h iHaveQueue iHave).1.freed =
        h.freed ++ (pkts ++ (iHave.map ChunkPtr.self ++ queue)) := by
  cases iHave with
  | nil => exact ⟨[], [], .nil (Nat.le_refl _), List.nil_sublist _, (List.append_nil _).symm⟩
  | cons c iHave =>
      let built := newPackets h.malloc.2
        ((chunks2pkts ((c :: iHave).map ChunkPtr.record) .ihave).getD [])
      obtain ⟨-, hfreed, hfresh⟩ : _ ∧ built.2.freed = h.malloc.2.freed ∧ _ := newPackets_spec _ _
      have heq : (reply h iHaveQueue (c :: iHave)).1 = { built.2 with
          freed := built.2.freed ++ (built.1.tail.map Prod.fst ++ [h.malloc.1]) ++
            ((c :: iHave).map ChunkPtr.self ++ [iHaveQueue]) } := by
        show freeQueue (freeQueue built.2 h.malloc.1 (built.1.tail.map fun p ↦ some p.1))
          iHaveQueue ((c :: iHave).map fun c ↦ some c.self) = _
        rw [freeQueue_eq, freeQueue_eq, reduceOption_map_some, reduceOption_map_some]
      refine ⟨built.1.tail.map Prod.fst ++ [h.malloc.1], [iHaveQueue], ?_, .refl _, ?_⟩
      · have hall := ((Fresh.malloc h).append hfresh).perm List.perm_append_comm
        rw [heq]
        exact hall.sublist (((List.tail_sublist _).map _).append (.refl _))
      · rw [heq]
        show built.2.freed ++ _ ++ _ = _
        rw [hfreed, List.append_assoc]
        rfl

/-- What `process_WHOHAS` frees are fresh objects exactly if no chunk is asked for twice. -/
theorem processWHOHAS_spec {hasChunks : Option (List ChunkT)} {pkt : Packet} {sent : Option Packet}
    (hproc : processWHOHAS h hasChunks pkt = some (h', sent)) :
    ∃ whoHas objs, pkt2chunks pkt .whohas = some whoHas ∧ h'.freed = h.freed ++ objs ∧
      (AskedOnce hasChunks whoHas → Fresh h.next h'.next objs) ∧
      (objs.Nodup → AskedOnce hasChunks whoHas) := by
  obtain ⟨whoHas, hpkt, heq⟩ := Option.map_eq_some_iff.mp hproc
  obtain ⟨hwho, hfreed₁, hfresh₁⟩ := newChunks_spec h.malloc.2 whoHas
  simp only at heq
  generalize newChunks h.malloc.2 whoHas = who at heq hwho hfreed₁ hfresh₁
  obtain ⟨hhas, hfreed₂, hfresh₂⟩ := listChunks_spec who.2 hasChunks
  generalize listChunks who.2 hasChunks = has at heq hhas hfreed₂ hfresh₂
  obtain ⟨pkts, queue, hfresh₃, hqueue, hfreed₃⟩ :=
    reply_spec has.2.malloc.2 has.2.malloc.1 (whichIHave has.1 who.1)
  generalize reply has.2.malloc.2 has.2.malloc.1 (whichIHave has.1 who.1) = out at heq hfresh₃ hfreed₃
  have hchunks : ((has.1.getD []).map ChunkPtr.self).Nodup :=
    (hfresh₂.sublist (sublist_objects _)).nodup
  have hentered := nodup_whichIHave hchunks who.1
  rw [hhas, hwho] at hentered
  let entered := (whichIHave has.1 who.1).map ChunkPtr.self
  let asked := who.1.map ChunkPtr.self
  rw [Prod.mk.injEq, freeQueue_eq, reduceOption_map_some] at heq
  obtain ⟨rfl, -⟩ := heq
  refine ⟨whoHas, pkts ++ (entered ++ queue) ++ (asked ++ [h.malloc.1]), hpkt, ?_, ?_, ?_⟩
  · show out.1.freed ++ (asked ++ [h.malloc.1]) = _
    rw [hfreed₃]
    show has.2.freed ++ _ ++ _ = _
    rw [hfreed₂, hfreed₁, List.append_assoc]
    rfl
  · intro honce
    -- in the order in which they were allocated
    have hasked : Fresh h.malloc.2.next who.2.next asked := hfresh₁.sublist (sublist_objects _)
    have hfound : Fresh who.2.next has.2.next entered := by
      refine (hfresh₂.sublist (sublist_objects _)).of_subset (hentered.mpr honce) ?_
      intro x hx
      obtain ⟨c, hc, rfl⟩ := List.mem_map.mp hx
      obtain ⟨w, -, hw⟩ := List.mem_filterMap.mp hc
      exact List.mem_map_of_mem (findHash_eq_some (x := w.record.hash) hw).1
    have hall := ((((Fresh.malloc h).append hasked).append hfound).append
      ((Fresh.malloc has.2).sublist hqueue)).append hfresh₃
    rw [List.append_assoc _ entered queue] at hall
    have hback : ([h.malloc.1] ++ asked).Perm (asked ++ [h.malloc.1]) := List.perm_append_comm
    rw [List.append_assoc]
    exact hall.perm (List.perm_append_comm.trans
      ((List.perm_append_comm.trans (hback.append_left _)).append_left pkts))
  · intro hnodup
    apply hentered.mp
    exact hnodup.sublist (((List.sublist_append_left entered queue).trans
      (List.sublist_append_right pkts _)).trans (List.sublist_append_left _ _))

/-- No chunk that `chunks2file` writes has a holder. -/
def WrittenUnheld (shahash : List UInt8 → List UInt8) (records : List ChunkT) : Prop :=
  ∀ record ∈ records.takeWhile (Right shahash), ∀ p, some p ∉ record.holders

/-- The holders of a chunk are among what is freed with it. -/
theorem other_mem_parts {c : ChunkPtr} {p : PeerRef} :
    .other p ∈ c.parts ↔ some p ∈ c.record.holders ∨ .other p ∈ c.objects := by
  rw [ChunkPtr.parts, List.mem_append]
  refine or_congr_left ?_
  rw [List.reduceOption_mem_iff, List.mem_map]
  constructor
  · rintro ⟨holder, hmem, heq⟩
    cases holder with
    | none => cases heq
    | some q =>
        cases heq
        exact hmem
  · exact fun hmem ↦ ⟨some p, hmem, rfl⟩

/-- Without holders only the objects of the chunk are. -/
theorem parts_of_unheld {c : ChunkPtr} (h : ∀ p, some p ∉ c.record.holders) :
    c.parts = c.objects := by
  have hnil : (c.record.holders.map (·.map Obj.other)).reduceOption = ([] : List Object) := by
    rw [List.eq_nil_iff_forall_not_mem]
    intro x hx
    rw [List.reduceOption_mem_iff, List.mem_map] at hx
    obtain ⟨holder, hmem, heq⟩ := hx
    cases holder with
    | none => cases heq
    | some q => exact h q hmem
  rw [ChunkPtr.parts, hnil]
  rfl

/-- What `chunks2file` frees are fresh objects if no chunk it writes has a holder, and one of
`config.peers` if one has. -/
theorem chunks2file_spec (shahash : List UInt8 → List UInt8) (h : Heap PeerRef)
    (records : List ChunkT) :
    ∃ objs, (chunks2file shahash h records).freed = h.freed ++ objs ∧
      (WrittenUnheld shahash records → Fresh h.next (chunks2file shahash h records).next objs) ∧
      ((∀ p, .other p ∉ objs) → WrittenUnheld shahash records) := by
  obtain ⟨hrecords, hfreed, hfresh⟩ := newChunks_spec h.malloc.2 records
  let done := newChunks h.malloc.2 records
  let doneQueue := done.2.malloc.1
  let written := done.1.takeWhile (Right shahash ∘ ChunkPtr.record)
  let rest := (done.1.dropWhile (Right shahash ∘ ChunkPtr.record)).tail
  have hwritten : written.map ChunkPtr.record = records.takeWhile (Right shahash) := by
    rw [← List.takeWhile_map]
    exact congrArg _ hrecords
  have hall := ((Fresh.malloc h).append hfresh).append (Fresh.malloc done.2)
  cases records with
  | nil =>
      refine ⟨[], (List.append_nil _).symm, fun _ ↦ .nil hall.le, fun _ record hrecord ↦ ?_⟩
      exact absurd hrecord List.not_mem_nil
  | cons record records =>
      have heq : chunks2file shahash h (record :: records) = { done.2.malloc.2 with
          freed := done.2.freed ++ written.flatMap ChunkPtr.parts ++ [h.malloc.1] ++
            (rest.map ChunkPtr.self ++ [doneQueue]) } := by
        show freeQueue (freeQueue (chunks2fileLoop shahash done.2.malloc.2 done.1).2 h.malloc.1 [])
          doneQueue ((chunks2fileLoop shahash done.2.malloc.2 done.1).1.map fun c ↦ some c.self) = _
        rw [chunks2fileLoop_eq, freeQueue_eq, freeQueue_eq, reduceOption_map_some]
        rfl
      refine ⟨written.flatMap ChunkPtr.parts ++ [h.malloc.1] ++
        (rest.map ChunkPtr.self ++ [doneQueue]), ?_, ?_, ?_⟩
      · rw [heq]
        show done.2.freed ++ _ ++ _ ++ _ = _
        rw [hfreed, List.append_assoc, List.append_assoc, List.append_assoc]
        rfl
      · intro hunheld
        have hparts : written.flatMap ChunkPtr.parts = written.flatMap ChunkPtr.objects :=
          List.flatMap_congr fun c hc ↦ parts_of_unheld
            (hunheld c.record (hwritten ▸ List.mem_map_of_mem hc))
        -- the chunks written with their holders, and the rest by themselves
        have hsub : (written.flatMap ChunkPtr.objects ++ rest.map ChunkPtr.self).Sublist
            (done.1.flatMap ChunkPtr.objects) := by
          have hsplit : written ++ done.1.dropWhile (Right shahash ∘ ChunkPtr.record) = done.1 :=
            List.takeWhile_append_dropWhile
          rw [← hsplit, List.flatMap_append]
          exact (List.Sublist.refl _).append ((sublist_objects rest).trans
            ((List.tail_sublist _).flatMap _))
        rw [heq, hparts]
        have hfresh' := ((Fresh.malloc h).append (hfresh.sublist hsub)).append (Fresh.malloc done.2)
        refine hfresh'.perm ?_
        rw [← List.append_assoc, ← List.append_assoc]
        exact (List.perm_append_comm.append_right _).append_right _
      · intro hnone record hrecord p hp
        rw [← hwritten, List.mem_map] at hrecord
        obtain ⟨c, hc, rfl⟩ := hrecord
        exact hnone p (List.mem_append_left _ (List.mem_append_left _
          (List.mem_flatMap.mpr ⟨c, hc, other_mem_parts.mpr (.inl hp)⟩)))

/-! ## Any run -/

/-- What the peer handles: a WHOHAS packet, with what its has-chunk file holds, or the end of a
download, with its chunks. -/
inductive Handled where
  | whohas (hasChunks : Option (List ChunkT)) (pkt : Packet)
  | completed (records : List ChunkT)

def step (shahash : List UInt8 → List UInt8) (h : Heap PeerRef) : Handled → Option (Heap PeerRef)
  | .whohas hasChunks pkt => (processWHOHAS h hasChunks pkt).map Prod.fst
  | .completed records => some (chunks2file shahash h records)

/-- Each object that is freed belongs to one queue, or to one chunk, only. -/
def OwnedOnce (shahash : List UInt8 → List UInt8) : Handled → Prop
  | .whohas hasChunks pkt =>
      ∀ whoHas, pkt2chunks pkt .whohas = some whoHas → AskedOnce hasChunks whoHas
  | .completed records => WrittenUnheld shahash records

/-- What one step frees. -/
theorem step_spec {e : Handled} (hstep : step shahash h e = some h') :
    ∃ objs, h'.freed = h.freed ++ objs ∧ (OwnedOnce shahash e → Fresh h.next h'.next objs) ∧
      (objs.Nodup → (∀ p, .other p ∉ objs) → OwnedOnce shahash e) := by
  cases e with
  | whohas hasChunks pkt =>
      obtain ⟨⟨h'', sent⟩, hproc, rfl⟩ := Option.map_eq_some_iff.mp hstep
      obtain ⟨whoHas, objs, hpkt, hfreed, hfresh, honce⟩ := processWHOHAS_spec hproc
      refine ⟨objs, hfreed, fun howned ↦ hfresh (howned whoHas hpkt), ?_⟩
      intro hnodup _ whoHas' hpkt'
      rw [hpkt, Option.some.injEq] at hpkt'
      exact hpkt' ▸ honce hnodup
  | completed records =>
      cases hstep
      obtain ⟨objs, hfreed, hfresh, hunheld⟩ := chunks2file_spec shahash h records
      exact ⟨objs, hfreed, hfresh, fun _ ↦ hunheld⟩

/-- If nothing has been freed twice after a step, the step has freed what is owned once only. -/
theorem ownedOnce_of_step {e : Handled} (hstep : step shahash h e = some h') (hgood : FreedOnce h') :
    OwnedOnce shahash e := by
  obtain ⟨objs, hfreed, -, howned⟩ := step_spec hstep
  have hsub : objs.Sublist h'.freed := hfreed ▸ List.sublist_append_right _ _
  exact howned (hgood.nodup.sublist hsub) fun p hp ↦ hgood.own p (hsub.subset hp)

/-- In every run, whatever packets arrive and whatever is downloaded: no object is freed twice
and none of `config.peers` is freed, exactly if no WHOHAS packet asks twice for a chunk that the
peer has and no chunk that is written has a holder. -/
theorem freedOnce_iff {es : List Handled} {t : Heap PeerRef}
    (hrun : Machine.run (step shahash) .start es = some t) :
    (∀ fs, fs <+: es → ∀ t, Machine.run (step shahash) .start fs = some t → FreedOnce t) ↔
      ∀ e ∈ es, OwnedOnce shahash e := by
  rw [← Machine.along_events_iff hrun]
  have hstart : Fresh 0 (Heap.start : Heap PeerRef).next (Heap.start : Heap PeerRef).freed :=
    .nil (Nat.le_refl 0)
  refine Machine.along_iff_good (I := fun h ↦ Fresh 0 h.next h.freed) ?_ ?_ ?_ hrun hstart
  · exact fun h hfresh ↦ ⟨hfresh.nodup, hfresh.other_notMem⟩
  · intro h e h' hsound hstep howned
    obtain ⟨objs, hfreed, hfresh, -⟩ := step_spec hstep
    rw [hfreed]
    exact hsound.append (hfresh howned)
  · exact fun _ _ _ _ hstep hgood ↦ ownedOnce_of_step hstep hgood

/-- A hash function whose every value is twenty zeros. -/
def zeroHash (_ : List UInt8) : List UInt8 := List.replicate sha1HashSize 0

/-- A chunk with that hash. -/
def zeroChunk (holders : List (Option PeerRef)) : ChunkT :=
  { initChunk 0 (sha1Array (List.replicate 40 48)) with holders := holders }

/-- A WHOHAS packet that asks `n` times for it. -/
def askFor (n : Nat) : Packet :=
  makeWHOHAS (4 + sha1HashSize * n) (hashList n (List.replicate n (zeroChunk [])))

theorem pkt2chunks_askFor_one :
    pkt2chunks (askFor 1) .whohas = some [chunkOfHash (List.replicate 20 0)] := rfl

theorem pkt2chunks_askFor_two : pkt2chunks (askFor 2) .whohas =
    some [chunkOfHash (List.replicate 20 0), chunkOfHash (List.replicate 20 0)] := rfl

/-- The peer has the chunk, is asked for it once, and writes it without having a holder for it. -/
theorem freedOnce_iff_once : ∃ t, Machine.run (step zeroHash) .start
    [.whohas (some [zeroChunk []]) (askFor 1), .completed [zeroChunk []]] = some t ∧
      FreedOnce t := by
  have hrun : Machine.run (step zeroHash) .start
    [.whohas (some [zeroChunk []]) (askFor 1), .completed [zeroChunk []]] = some _ := rfl
  refine ⟨_, hrun, (freedOnce_iff hrun).mpr ?_ _ (List.prefix_refl _) _ hrun⟩
  rw [List.forall_mem_cons, List.forall_mem_singleton]
  refine ⟨?_, ?_⟩
  · intro whoHas hpkt
    cases pkt2chunks_askFor_one.symm.trans hpkt
    show List.Nodup _
    decide
  · intro record hrecord p
    have hmem := (List.takeWhile_sublist _).subset hrecord
    rw [List.mem_singleton.mp hmem]
    exact List.not_mem_nil

/-- A packet that asks for a chunk twice, and a download of a chunk that has a holder. -/
theorem not_freedOnce :
    (¬ ∀ (hasChunks : Option (List ChunkT)) (pkt : Packet) (t : Heap PeerRef),
      Machine.run (step zeroHash) .start [.whohas hasChunks pkt] = some t → FreedOnce t) ∧
    ¬ ∀ (records : List ChunkT) (t : Heap PeerRef),
      Machine.run (step zeroHash) .start [.completed records] = some t → FreedOnce t := by
  constructor
  · intro h
    have hstep : step zeroHash .start (.whohas (some [zeroChunk []]) (askFor 2)) = some _ := rfl
    have honce := ownedOnce_of_step hstep (h _ _ _ (Machine.run_single hstep)) _ pkt2chunks_askFor_two
    revert honce
    show ¬ List.Nodup _
    decide
  · intro h
    have hstep : step zeroHash .start (.completed [zeroChunk [some 0]]) = some _ := rfl
    have hunheld := ownedOnce_of_step hstep (h _ _ (Machine.run_single hstep))
    have hright : Right zeroHash (zeroChunk [some 0]) = true := by decide
    refine hunheld (zeroChunk [some 0]) ?_ 0 (List.mem_singleton_self _)
    rw [List.takeWhile_cons_of_pos hright]
    exact List.mem_cons_self ..

end Memory

end BitTorrent
