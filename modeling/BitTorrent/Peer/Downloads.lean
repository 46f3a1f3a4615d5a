import BitTorrent.Download.Finished
import BitTorrent.Peer.Commands

/-!
# One download after another

Every `process_download` allocates a pool, two queues and the records of its request, makes the
globals point to them and starts a thread.  All threads work on the globals, and so do the
handlers of IHAVE and DATA packets.  A thread whose queue has been replaced goes on with the
new one, and what was left in the old one is not looked at again.  A thread that leaves its loop
writes the chunks up to the first one with a wrong hash.

A command sets the names of the files first, which the threads see too, and calls
`process_download` then.  The main thread handles no packet between the two.
-/

namespace BitTorrent

/-- Where a thread that runs `pthread_receiver` is. -/
inductive ReceiverPhase where
  /-- In front of the test of its loop. -/
  | checking
  /-- In `select`, in front of `look_at`. -/
  | waiting
  | returned
deriving DecidableEq

/-- What one `process_download` has allocated, with the name of the output file in its command
and what was requested, and the files its chunks were written to. -/
structure Download where
  outputFile : List UInt8
  lines : List (Int × List UInt8)
  client : Client
  freed : Bool
  written : List (List UInt8 × List (Int × ChunkData))

/-- The loop of `chunks2file` writes as many chunks as there are exactly if each is right. -/
theorem Client.length_chunks2fileLoop_eq_iff {shahash : List UInt8 → List UInt8}
    {store : ChunkStore} {done : List ChunkRef} :
    (chunks2fileLoop shahash store done).length = done.length ↔
      ∀ r ∈ done, checkChunk shahash (store r).data (store r).sha1 = true := by
  induction done with
  | nil => simp [chunks2fileLoop]
  | cons r done ih =>
      rw [chunks2fileLoop, List.forall_mem_cons]
      by_cases hcheck : checkChunk shahash (store r).data (store r).sha1 = true
      · rw [if_pos hcheck, List.length_cons, List.length_cons, Nat.add_right_cancel_iff, ih]
        simp [hcheck]
      · rw [if_neg hcheck]
        simp [hcheck]

namespace Download

/-- `chunks2file`: with something to write it frees the pool and the queues in the end.  Where
the file cannot be created the program ends. -/
def chunks2file (shahash : List UInt8 → List UInt8) (outputFile : List UInt8) (d : Download) :
    Download :=
  if d.client.downChunks ≠ [] ∨ d.client.doneChunks = [] then d
  else
    { d with
      freed := true
      written := d.written ++ [(outputFile, d.client.chunks2file shahash)] }

/-- What `chunks2file` writes of a record, and where. -/
def block (d : Download) (r : ChunkRef) : Int × ChunkData :=
  (Client.chunkOffset (d.client.chunks r).id, (d.client.chunks r).data)

/-- Every chunk of the request is in the file of the command, written once. -/
def WrittenOut (d : Download) : Prop :=
  ∃ queue : List ChunkRef, queue.Perm (List.range d.lines.length) ∧
    d.written = [(d.outputFile, queue.map d.block)]

/-- Its thread has called `chunks2file`, or had nothing to write. -/
def Over (d : Download) : Prop := d.freed = true ∨ d.lines = []

/-- What holds of a download whatever happens. -/
structure Ok (max : Int) (d : Download) : Prop where
  consistent : (Client.start max d.lines).Consistent d.client
  freed_iff : d.freed = true ↔ d.written ≠ []
  empty : d.freed = true → d.client.downChunks = []

variable {shahash : List UInt8 → List UInt8} {max : Int} {d : Download}

theorem not_over_iff : ¬ d.Over ↔ d.freed = false ∧ d.lines ≠ [] := by simp [Over]

theorem Ok.mem_queues (h : d.Ok max) {r : ChunkRef} (hr : r < d.lines.length) :
    r ∈ d.client.downChunks ∨ r ∈ d.client.doneChunks :=
  List.mem_append.mp (h.consistent.holdsRequest.queues.mem_iff.mpr (List.mem_range.mpr hr))

/-- When a download is over its chunks are finished. -/
theorem Ok.finished_of_over (h : d.Ok max) (hover : d.Over) {r : ChunkRef}
    (hr : r < d.lines.length) : (d.client.chunks r).cState = .finished := by
  rcases hover with hfreed | hnone
  · rcases h.mem_queues hr with hdown | hdone
    · rw [h.empty hfreed] at hdown
      cases hdown
    · exact h.consistent.done r hdone
  · rw [hnone] at hr
    cases hr

/-- What is written out has been freed. -/
theorem Ok.freed_of_writtenOut (h : d.Ok max) (hout : d.WrittenOut) : d.freed = true := by
  obtain ⟨queue, -, hwritten⟩ := hout
  rw [h.freed_iff, hwritten]
  exact List.cons_ne_nil _ _

/-- A handler works on what has not been freed. -/
theorem Ok.step (h : d.Ok max) (hfreed : d.freed = false) {e : DownloadEvent} {c : Client}
    (hstep : d.client.step shahash e = some c) : { d with client := c }.Ok max where
  consistent := h.consistent.step hstep
  freed_iff := h.freed_iff
  empty hf := absurd (hfreed.symm.trans hf) Bool.false_ne_true

/-- With both queues empty nothing was requested. -/
theorem Ok.lines_eq_nil (h : d.Ok max) (hdown : d.client.downChunks = [])
    (hdone : d.client.doneChunks = []) : d.lines = [] := by
  have hlen := (h.consistent.holdsRequest.done_of_empty hdown).length_eq
  rw [hdone, List.length_range, eq_comm] at hlen
  exact List.length_eq_zero_iff.mp hlen

/-- Once nothing is left to download, what is done is written and everything is freed. -/
theorem chunks2file_of_empty (hempty : d.client.downChunks = []) (hdone : d.client.doneChunks ≠ [])
    (shahash : List UInt8 → List UInt8) (outputFile : List UInt8) :
    d.chunks2file shahash outputFile =
      { d with
        freed := true
        written := d.written ++ [(outputFile, d.client.chunks2file shahash)] } :=
  if_neg (by simp [hempty, hdone])

/-- With an empty queue `chunks2file` ends the download. -/
theorem Ok.chunks2file (h : d.Ok max) (hempty : d.client.downChunks = [])
    (shahash : List UInt8 → List UInt8) (outputFile : List UInt8) :
    (d.chunks2file shahash outputFile).Ok max ∧ (d.chunks2file shahash outputFile).Over := by
  by_cases hdone : d.client.doneChunks = []
  · rw [Download.chunks2file, if_pos (.inr hdone)]
    exact ⟨h, .inr (h.lines_eq_nil hempty hdone)⟩
  · rw [chunks2file_of_empty hempty hdone]
    exact ⟨⟨h.consistent, by simp, fun _ ↦ hempty⟩, .inl rfl⟩

/-- The chunks are written out exactly if the file is that of the command and each of them has
the right hash: the loop stops at the first that has not. -/
theorem Ok.writtenOut_iff (h : d.Ok max) (hfreed : d.freed = false)
    (hempty : d.client.downChunks = []) (hdone : d.client.doneChunks ≠ [])
    (outputFile : List UInt8) :
    (d.chunks2file shahash outputFile).WrittenOut ↔ outputFile = d.outputFile ∧
      ∀ r ∈ d.client.doneChunks,
        checkChunk shahash (d.client.chunks r).data (d.client.chunks r).sha1 = true := by
  have hnone : d.written = [] := by
    by_contra hwritten
    exact Bool.false_ne_true (hfreed.symm.trans (h.freed_iff.mpr hwritten))
  have hperm := h.consistent.holdsRequest.done_of_empty hempty
  have hloop : d.client.chunks2file shahash =
      Client.chunks2fileLoop shahash d.client.chunks d.client.doneChunks :=
    if_neg (by simp [hempty, hdone])
  rw [chunks2file_of_empty hempty hdone, hnone, List.nil_append, hloop]
  constructor
  · rintro ⟨queue, hqueue, hwritten⟩
    obtain ⟨hname, hblocks⟩ := Prod.mk.inj (List.singleton_inj.mp hwritten)
    refine ⟨hname, Client.length_chunks2fileLoop_eq_iff.mp ?_⟩
    rw [hblocks, List.length_map]
    exact hqueue.length_eq.trans hperm.length_eq.symm
  · rintro ⟨rfl, hcheck⟩
    exact ⟨d.client.doneChunks, hperm, by rw [Client.chunks2fileLoop_eq hcheck]; rfl⟩

end Download

/-- A downloading peer: its configuration, whether a command has set it that has not called
`process_download` yet, the downloads so far with the one the globals point to in front, and
the threads. -/
structure Downloader where
  cfg : BtConfig
  starting : Bool
  downloads : List Download
  threads : List ReceiverPhase

/-- What can happen to a downloading peer. -/
inductive DownloaderEvent where
  /-- `handle_user_input` reads a line, up to the call of `process_download`. -/
  | command (line : List UInt8)
  /-- `process_download`. -/
  | download
  /-- A thread tests whether there is something to download, and returns if not. -/
  | check (t : Nat)
  /-- A thread calls `look_at`. -/
  | lookAt (t : Nat)
  | ihave (pkt : Packet) (peer : Option PeerRef)
  | data (pkt : Packet) (peer : Option PeerRef)

namespace Downloader

/-- A peer before its first command. -/
def start (cfg : BtConfig) : Downloader where
  cfg := cfg
  starting := false
  downloads := []
  threads := []

/-- Do something with what the globals point to: there is no value where they have been freed.
Before the first download they are `NULL`, which is like a pool and queues that are empty. -/
def withGlobals (s : Downloader) (f : Client → Option Client) : Option Downloader :=
  match s.downloads with
  | [] => (f (.start s.cfg.maxConn [])).map fun _ ↦ s
  | d :: ds =>
      if d.freed then none
      else (f d.client).map fun client ↦ { s with downloads := { d with client := client } :: ds }

/-- The test of the loop of `pthread_receiver`, and what comes behind the loop. -/
def check (shahash : List UInt8 → List UInt8) (s : Downloader) (t : Nat) : Option Downloader :=
  match s.downloads with
  | [] => none
  | d :: ds =>
      if d.freed then none
      else if d.client.downChunks = [] then
        some { s with
          downloads := d.chunks2file shahash s.cfg.outputFile :: ds
          threads := s.threads.set t .returned }
      else some { s with threads := s.threads.set t .waiting }

/-- The steps of a downloading peer, for the files there are. -/
def step (fopen : List UInt8 → Option (List UInt8)) (shahash : List UInt8 → List UInt8)
    (s : Downloader) : DownloaderEvent → Option Downloader
  | .command line =>
      if s.starting then none
      else
        match scanCommand line with
        | none => some s
        | some (chunkf, outf) => some { s with cfg := s.cfg.setFiles chunkf outf, starting := true }
  | .download =>
      if s.starting then
        some { s with
          starting := false
          downloads :=
            { outputFile := s.cfg.outputFile
              lines := requestedLines (fopen s.cfg.chunkFile)
              client := (s.cfg.processDownload fopen).1
              freed := false
              written := [] } :: s.downloads
          threads := s.threads ++ [.checking] }
      else none
  | .check t => if s.threads[t]? = some .checking then s.check shahash t else none
  | .lookAt t =>
      if s.threads[t]? = some .waiting then
        (s.withGlobals fun c ↦ c.step shahash .lookAt).map fun s ↦
          { s with threads := s.threads.set t .checking }
      else none
  | .ihave pkt peer =>
      if s.starting then none else s.withGlobals fun c ↦ c.step shahash (.ihave pkt peer)
  | .data pkt peer =>
      if s.starting then none else s.withGlobals fun c ↦ c.step shahash (.data pkt peer)

/-! ## What is meant to hold -/

/-- Some thread has not returned yet. -/
def Running (s : Downloader) : Prop := ∃ t ∈ s.threads, t ≠ .returned

/-- No chunk of a download is lost before it is finished, all chunks of a download are written to
the file named in its command unless a thread is still at work on it, and none to another
file. -/
structure Right (s : Downloader) : Prop where
  served : ∀ i d, s.downloads[i]? = some d → ∀ r < d.lines.length,
    (d.client.chunks r).cState = .finished ∨
      i = 0 ∧ d.freed = false ∧ r ∈ d.client.downChunks ∧ s.Running
  written : ∀ i d, s.downloads[i]? = some d → d.lines ≠ [] →
    d.WrittenOut ∨ i = 0 ∧ d.freed = false ∧ s.Running
  files : ∀ d ∈ s.downloads, ∀ w ∈ d.written, w.1 = d.outputFile

/-- The downloads do not get into each other's way: `process_download` finds the download before
it over, and a thread that is about to write its chunks finds the name of the file it had in
its command, and each chunk with the right hash. -/
def Undisturbed (shahash : List UInt8 → List UInt8) (s : Downloader) : DownloaderEvent → Prop
  | .download => ∀ d ∈ s.downloads.head?, d.Over
  | .check _ => ∀ d ∈ s.downloads.head?, d.client.downChunks = [] → d.client.doneChunks ≠ [] →
      s.cfg.outputFile = d.outputFile ∧ ∀ r ∈ d.client.doneChunks,
        checkChunk shahash (d.client.chunks r).data (d.client.chunks r).sha1 = true
  | _ => True

variable {fopen : List UInt8 → Option (List UInt8)} {shahash : List UInt8 → List UInt8}
  {s s' : Downloader} {e : DownloaderEvent} {d : Download} {max : Int}

/-! ## In every run -/

/-- What holds as long as the downloads do not get into each other's way. -/
structure Ordered (s : Downloader) : Prop where
  each : ∀ d ∈ s.downloads, d.Ok s.cfg.maxConn
  out : ∀ d ∈ s.downloads, d.freed = true → d.WrittenOut
  earlier : ∀ d ∈ s.downloads.tail, d.Over
  running : ∀ d ∈ s.downloads.head?, ¬ d.Over → s.Running

theorem ordered_start (cfg : BtConfig) : (start cfg).Ordered where
  each _ hd := absurd hd List.not_mem_nil
  out _ hd := absurd hd List.not_mem_nil
  earlier _ hd := absurd hd List.not_mem_nil
  running _ hd := by cases hd

/-- A download that is not over is in front, and its thread is at work. -/
theorem Ordered.over_or (h : s.Ordered) {i : Nat} (hi : s.downloads[i]? = some d) :
    d.Over ∨ i = 0 ∧ d.freed = false ∧ s.Running := by
  by_cases hover : d.Over
  · exact .inl hover
  · cases i with
    | zero =>
        have hhead : d ∈ s.downloads.head? := by
          rw [List.head?_eq_getElem?]
          exact hi
        exact .inr ⟨rfl, (Download.not_over_iff.mp hover).1, h.running d hhead hover⟩
    | succ i =>
        rw [← List.getElem?_tail] at hi
        exact absurd (h.earlier d (List.mem_of_getElem? hi)) hover

/-- Then everything is as it is meant to be. -/
theorem Ordered.right (h : s.Ordered) : s.Right where
  served i d hi r hr := by
    have hok := h.each d (List.mem_of_getElem? hi)
    rcases h.over_or hi with hover | ⟨hfirst, hfreed, hrunning⟩
    · exact .inl (hok.finished_of_over hover hr)
    · rcases hok.mem_queues hr with hdown | hdone
      · exact .inr ⟨hfirst, hfreed, hdown, hrunning⟩
      · exact .inl (hok.consistent.done r hdone)
  written i d hi hlines := by
    rcases h.over_or hi with (hfreed | hnone) | hserved
    · exact .inl (h.out d (List.mem_of_getElem? hi) hfreed)
    · exact absurd hnone hlines
    · exact .inr hserved
  files d hd w hw := by
    obtain ⟨queue, -, hwritten⟩ :=
      h.out d hd ((h.each d hd).freed_iff.mpr (List.ne_nil_of_mem hw))
    rw [hwritten] at hw
    rw [List.mem_singleton.mp hw]

/-- A thread that goes on keeps running. -/
theorem running_set {threads : List ReceiverPhase} {t : Nat} {phase old : ReceiverPhase}
    (ht : threads[t]? = some old) (hphase : phase ≠ .returned) :
    ∃ t' ∈ threads.set t phase, t' ≠ .returned := by
  obtain ⟨hlt, -⟩ := List.getElem?_eq_some_iff.mp ht
  exact ⟨phase, List.mem_set hlt phase, hphase⟩

/-- Handling what the globals point to changes the download in front only. -/
theorem withGlobals_cases {f : Client → Option Client} (h : s.withGlobals f = some s') :
    s' = s ∨ ∃ d ds client, s.downloads = d :: ds ∧ d.freed = false ∧ f d.client = some client ∧
      s' = { s with downloads := { d with client := client } :: ds } := by
  rw [withGlobals] at h
  split at h
  · obtain ⟨c, -, rfl⟩ := Option.map_eq_some_iff.mp h
    exact .inl rfl
  · next d ds hds =>
      rw [Option.ite_none_left_eq_some] at h
      obtain ⟨hfreed, h⟩ := h
      obtain ⟨client, hclient, rfl⟩ := Option.map_eq_some_iff.mp h
      exact .inr ⟨d, ds, client, hds, by simpa using hfreed, hclient, rfl⟩

theorem threads_withGlobals {f : Client → Option Client} (h : s.withGlobals f = some s') :
    s'.threads = s.threads := by
  rcases withGlobals_cases h with rfl | ⟨d, ds, client, -, -, -, rfl⟩
  · rfl
  · rfl

/-- A change to the download in front. -/
theorem Ordered.set_head (h : s.Ordered) {ds : List Download} {d' : Download}
    {threads : List ReceiverPhase} (hds : s.downloads = d :: ds) (hok : d'.Ok s.cfg.maxConn)
    (hout : d'.freed = true → d'.WrittenOut)
    (hrunning : ¬ d'.Over → ∃ t ∈ threads, t ≠ .returned) :
    { s with downloads := d' :: ds, threads := threads }.Ordered := by
  have hmem : ∀ x ∈ ds, x ∈ s.downloads := fun x hx ↦ hds ▸ List.mem_cons_of_mem _ hx
  refine ⟨?_, ?_, ?_, ?_⟩
  · intro x hx
    rcases List.mem_cons.mp hx with rfl | hx
    · exact hok
    · exact h.each x (hmem x hx)
  · intro x hx
    rcases List.mem_cons.mp hx with rfl | hx
    · exact hout
    · exact h.out x (hmem x hx)
  · intro x hx
    apply h.earlier
    rw [hds]
    exact hx
  · intro x hx
    cases hx
    exact hrunning

/-- The thread, or the main one, works on the globals. -/
theorem Ordered.withGlobals (h : s.Ordered) {e : DownloadEvent}
    (hstep : s.withGlobals (fun c ↦ c.step shahash e) = some s') : s'.Ordered := by
  rcases withGlobals_cases hstep with rfl | ⟨d, ds, client, hds, hfreed, hclient, rfl⟩
  · exact h
  · have hd : d ∈ s.downloads := hds ▸ List.mem_cons_self ..
    refine h.set_head hds ((h.each d hd).step hfreed hclient)
      (fun hf ↦ absurd (hfreed.symm.trans hf) Bool.false_ne_true) fun hover ↦ ?_
    exact h.running d (by rw [hds]; rfl) hover

/-- As long as some thread runs, it does not matter which. -/
theorem Ordered.set_threads (h : s.Ordered) {threads : List ReceiverPhase}
    (hrunning : ∃ t ∈ threads, t ≠ .returned) : { s with threads := threads }.Ordered :=
  ⟨h.each, h.out, h.earlier, fun _ _ _ ↦ hrunning⟩

/-- A thread tests its loop, and writes all there is to the right file if it returns. -/
theorem Ordered.check (h : s.Ordered) {t : Nat} (ht : s.threads[t]? = some .checking)
    (hok : s.Undisturbed shahash (.check t)) (hstep : s.check shahash t = some s') :
    s'.Ordered := by
  rw [Downloader.check] at hstep
  split at hstep
  · cases hstep
  · next d ds hds =>
      have hd : d ∈ s.downloads := hds ▸ List.mem_cons_self ..
      rw [Option.ite_none_left_eq_some] at hstep
      obtain ⟨hfreed, hstep⟩ := hstep
      split at hstep
      · next hempty =>
          cases hstep
          obtain ⟨hok', hover⟩ := (h.each d hd).chunks2file hempty shahash s.cfg.outputFile
          refine h.set_head hds hok' (fun hf ↦ ?_) fun hc ↦ absurd hover hc
          by_cases hdone : d.client.doneChunks = []
          · rw [Download.chunks2file, if_pos (.inr hdone)] at hf
            exact absurd hf hfreed
          · exact ((h.each d hd).writtenOut_iff (by simpa using hfreed) hempty hdone _).mpr
              (hok d (by rw [hds]; rfl) hempty hdone)
      · cases hstep
        exact h.set_threads (running_set ht ReceiverPhase.noConfusion)

theorem Ordered.over_all (h : s.Ordered) (hhead : ∀ d ∈ s.downloads.head?, d.Over) :
    ∀ d ∈ s.downloads, d.Over := by
  intro d hd
  have hover := h.earlier
  cases hds : s.downloads with
  | nil =>
      rw [hds] at hd
      cases hd
  | cons d' ds =>
      rw [hds] at hd hhead hover
      rcases List.mem_cons.mp hd with rfl | hd
      · exact hhead d rfl
      · exact hover d hd

/-- A new download is in front of those that are over. -/
theorem Ordered.download (h : s.Ordered) (hok : s.Undisturbed shahash .download)
    (hstep : s.step fopen shahash .download = some s') : s'.Ordered := by
  rw [step, Option.ite_none_right_eq_some] at hstep
  obtain ⟨-, hstep⟩ := hstep
  cases hstep
  refine ⟨?_, ?_, ?_, ?_⟩
  · intro x hx
    rcases List.mem_cons.mp hx with rfl | hx
    · exact ⟨Client.consistent_start _ _, by simp, fun hc ↦ Bool.noConfusion hc⟩
    · exact h.each x hx
  · intro x hx
    rcases List.mem_cons.mp hx with rfl | hx
    · exact fun hc ↦ Bool.noConfusion hc
    · exact h.out x hx
  · exact h.over_all hok
  · exact fun _ _ _ ↦ ⟨.checking, by simp, ReceiverPhase.noConfusion⟩

/-- Whatever happens that does not disturb a download. -/
theorem Ordered.step (h : s.Ordered) (hok : s.Undisturbed shahash e)
    (hstep : s.step fopen shahash e = some s') : s'.Ordered := by
  cases e with
  | command line =>
      rw [Downloader.step, Option.ite_none_left_eq_some] at hstep
      obtain ⟨-, hstep⟩ := hstep
      split at hstep
      · cases hstep
        exact h
      · cases hstep
        exact ⟨h.each, h.out, h.earlier, h.running⟩
  | download => exact h.download hok hstep
  | check t =>
      obtain ⟨ht, hstep⟩ := Option.ite_none_right_eq_some.mp hstep
      exact h.check ht hok hstep
  | lookAt t =>
      obtain ⟨ht, hstep⟩ := Option.ite_none_right_eq_some.mp hstep
      obtain ⟨s₁, hlook, rfl⟩ := Option.map_eq_some_iff.mp hstep
      rw [← threads_withGlobals hlook] at ht
      exact (h.withGlobals hlook).set_threads (running_set ht ReceiverPhase.noConfusion)
  | ihave pkt peer => exact h.withGlobals (Option.ite_none_left_eq_some.mp hstep).2
  | data pkt peer => exact h.withGlobals (Option.ite_none_left_eq_some.mp hstep).2

/-- A step after which everything is as it is meant to be has not disturbed a download. -/
theorem Ordered.undisturbed (h : s.Ordered) (hstep : s.step fopen shahash e = some s')
    (hright : s'.Right) : s.Undisturbed shahash e := by
  cases e with
  | download =>
      intro d hd
      have hok := h.each d (List.mem_of_mem_head? hd)
      obtain ⟨-, hstep⟩ := Option.ite_none_right_eq_some.mp hstep
      cases hstep
      -- the download before is the second one now
      have hsecond := hright.written 1 d ((List.getElem?_cons_succ ..).trans (by
        rw [← List.head?_eq_getElem?]
        exact hd))
      by_cases hlines : d.lines = []
      · exact .inr hlines
      · rcases hsecond hlines with hout | ⟨hfirst, -⟩
        · exact .inl (hok.freed_of_writtenOut hout)
        · cases hfirst
  | check t =>
      intro d hd hempty hdone
      have hok := h.each d (List.mem_of_mem_head? hd)
      obtain ⟨-, hstep⟩ := Option.ite_none_right_eq_some.mp hstep
      rw [Downloader.check] at hstep
      split at hstep
      · next hds =>
          rw [hds] at hd
          cases hd
      · next d' ds hds =>
          rw [hds] at hd
          cases hd
          rw [Option.ite_none_left_eq_some, if_pos hempty] at hstep
          obtain ⟨hfreed, hstep⟩ := hstep
          cases hstep
          have hlines : d.lines ≠ [] := by
            intro hnone
            have hperm := hok.consistent.holdsRequest.done_of_empty hempty
            rw [hnone] at hperm
            exact hdone (List.perm_nil.mp hperm)
          have hfreed' : (d.chunks2file shahash s.cfg.outputFile).freed = true := by
            rw [Download.chunks2file_of_empty hempty hdone]
          have hlines' : (d.chunks2file shahash s.cfg.outputFile).lines ≠ [] := by
            rw [Download.chunks2file_of_empty hempty hdone]
            exact hlines
          rcases hright.written 0 _ rfl hlines' with hout | ⟨-, hopen, -⟩
          · exact (hok.writtenOut_iff (by simpa using hfreed) hempty hdone _).mp hout
          · exact absurd (hopen.symm.trans hfreed') Bool.false_ne_true
  | command line => trivial
  | lookAt t => trivial
  | ihave pkt peer => trivial
  | data pkt peer => trivial

/-! ## One download -/

section Loading

variable {cfg : BtConfig} {outf : List UInt8} {lines : List (Int × List UInt8)} {c c' : Client}

/-- One download is going on, and its thread is in front of the test of its loop. -/
def loading (cfg : BtConfig) (outf : List UInt8) (lines : List (Int × List UInt8)) (c : Client) :
    Downloader where
  cfg := cfg
  starting := false
  downloads := [{ outputFile := outf, lines := lines, client := c, freed := false, written := [] }]
  threads := [.checking]

theorem threads_loading (cfg : BtConfig) (outf : List UInt8) (lines : List (Int × List UInt8))
    (c : Client) : (loading cfg outf lines c).threads[0]? = some .checking := rfl

/-- This is what the first command leads to. -/
theorem run_command {line chunkf : List UInt8} (hcmd : scanCommand line = some (chunkf, outf)) :
    Machine.run (step fopen shahash) (start cfg) [.command line, .download] =
      some (loading (cfg.setFiles chunkf outf) outf (requestedLines (fopen chunkf))
        (.start cfg.maxConn (requestedLines (fopen chunkf)))) := by
  have hset : step fopen shahash (start cfg) (.command line) =
      some { start cfg with cfg := cfg.setFiles chunkf outf, starting := true } := by
    rw [step]
    refine (if_neg Bool.false_ne_true).trans ?_
    rw [hcmd]
    rfl
  rw [Machine.run_cons, hset]
  rfl

/-- A round of the loop is a test and a `look_at` of the thread. -/
theorem run_lookAt_loading (hmore : c.downChunks ≠ []) :
    Machine.run (step fopen shahash) (loading cfg outf lines c) [.check 0, .lookAt 0] =
      some (loading cfg outf lines c.lookAt.1) := by
  have hcheck : step fopen shahash (loading cfg outf lines c) (.check 0) =
      some { loading cfg outf lines c with threads := [.waiting] } := by
    rw [step, if_pos (threads_loading cfg outf lines c), check]
    exact (if_neg Bool.false_ne_true).trans (if_neg hmore)
  rw [Machine.run_cons, hcheck]
  rfl

/-- Packets reach its receivers. -/
theorem run_data_loading (p : PeerRef) {pkts : List Packet}
    (hrun : Machine.run (Client.step shahash) c (pkts.map fun q ↦ .data q (some p)) = some c') :
    Machine.run (step fopen shahash) (loading cfg outf lines c)
      (pkts.map fun q ↦ .data q (some p)) = some (loading cfg outf lines c') := by
  induction pkts generalizing c with
  | nil =>
      cases hrun
      rfl
  | cons q pkts ih =>
      obtain ⟨c₁, hstep, hrest⟩ := Machine.run_cons_eq_some.mp hrun
      have hstep' : step fopen shahash (loading cfg outf lines c) (.data q (some p)) =
          some (loading cfg outf lines c₁) := congrArg (Option.map (loading cfg outf lines)) hstep
      exact Machine.run_cons_eq_some.mpr ⟨_, hstep', ih hrest⟩

/-- With the queue empty the thread writes what is done. -/
theorem check_loading (hdown : c.downChunks = []) (hdone : c.doneChunks ≠ []) :
    step fopen shahash (loading cfg outf lines c) (.check 0) = some
      { loading cfg outf lines c with
        downloads := [{ outputFile := outf, lines := lines, client := c, freed := true,
                        written := [(cfg.outputFile, c.chunks2file shahash)] }]
        threads := [.returned] } := by
  rw [step, if_pos (threads_loading cfg outf lines c), check]
  refine (if_neg Bool.false_ne_true).trans ((if_pos hdown).trans ?_)
  rw [Download.chunks2file_of_empty hdown hdone]
  rfl

/-- Neither disturbs the download. -/
theorem along_lookAt_loading (hmore : c.downChunks ≠ []) :
    Machine.Along (step fopen shahash) (Undisturbed shahash) (loading cfg outf lines c)
      [.check 0, .lookAt 0] := by
  refine ⟨fun d hd hempty ↦ ?_, fun _ _ ↦ ⟨trivial, fun _ _ ↦ trivial⟩⟩
  cases hd
  exact absurd hempty hmore

/-- The packets reach its receivers, the thread looks at the queue once more and writes. -/
theorem run_last_loading (fopen : List UInt8 → Option (List UInt8)) (cfg : BtConfig)
    (lines : List (Int × List UInt8)) (p : PeerRef) {pkts : List Packet}
    (hrun : Machine.run (Client.step shahash) c (pkts.map fun q ↦ .data q (some p)) = some c')
    (hmore : c'.downChunks ≠ []) (hdown : c'.lookAt.1.downChunks = [])
    (hdone : c'.lookAt.1.doneChunks ≠ []) (hright : ∀ r ∈ c'.lookAt.1.doneChunks,
      checkChunk shahash (c'.lookAt.1.chunks r).data (c'.lookAt.1.chunks r).sha1 = true) :
    ∃ s d, Machine.run (step fopen shahash) (loading cfg cfg.outputFile lines c)
        (pkts.map (fun q ↦ .data q (some p)) ++ [.check 0, .lookAt 0, .check 0]) = some s ∧
      Machine.Along (step fopen shahash) (Undisturbed shahash)
        (loading cfg cfg.outputFile lines c)
        (pkts.map (fun q ↦ .data q (some p)) ++ [.check 0, .lookAt 0, .check 0]) ∧
      s.downloads = [d] ∧ d.written = [(cfg.outputFile, c'.lookAt.1.chunks2file shahash)] := by
  refine ⟨_, _, Machine.run_trans (run_data_loading p hrun)
    (Machine.run_trans (run_lookAt_loading hmore) (Machine.run_single (check_loading hdown hdone))),
    (Machine.along_append (run_data_loading p hrun)).mpr ⟨?_, ?_⟩, rfl, rfl⟩
  · refine Machine.along_of_events fun e he s ↦ ?_
    obtain ⟨q, -, rfl⟩ := List.mem_map.mp he
    trivial
  · refine (Machine.along_append (run_lookAt_loading hmore)).mpr ⟨along_lookAt_loading hmore, ?_⟩
    refine ⟨fun d hd _ _ ↦ ?_, fun _ _ ↦ trivial⟩
    cases hd
    exact ⟨rfl, hright⟩

end Loading

/-! ## Any run -/

/-- In every state a run passes through no chunk of a download is lost before it is finished, and
all chunks of a download are written to the file of its own command or still worked on, exactly
if the run disturbs no download: whenever `process_download` is called the download before is
over, and whenever a thread writes chunks the name of the output file is that of their command
and each of them has the right hash. -/
theorem downloads_right_iff {cfg : BtConfig} {es : List DownloaderEvent}
    (hrun : Machine.run (step fopen shahash) (start cfg) es = some s) :
    (∀ fs, fs <+: es → ∀ t, Machine.run (step fopen shahash) (start cfg) fs = some t → t.Right) ↔
      Machine.Along (step fopen shahash) (Undisturbed shahash) (start cfg) es :=
  Machine.along_iff_good (fun _ h ↦ Ordered.right h) (fun _ _ _ h hstep hok ↦ h.step hok hstep)
    (fun _ _ _ h hstep hright ↦ h.undisturbed hstep hright) hrun (ordered_start cfg)

/-- The command `GET a b`, and a thread that asks for the chunk once it is announced. -/
def askOnce : List DownloaderEvent :=
  [.command getCommand, .download, .ihave Client.zeroIHAVE (some 0), .check 0, .lookAt 0]

/-- All packets of the chunk, and the thread until it returns. -/
def finishOnce : List DownloaderEvent :=
  (chunk2pkts (.fill 0)).1.map (fun q ↦ .data q (some 0)) ++ [.check 0, .lookAt 0, .check 0]

/-- A run of the download up to the first look is one of the peer. -/
theorem run_askOnce {c : Client}
    (hask : Machine.run (Client.step Client.firstBytes) (.start 1 Client.zeroLine) Client.askZeros =
      some c) :
    Machine.run (step threeFiles Client.firstBytes) (start masterConfig) askOnce =
        some (loading (masterConfig.setFiles [97] [98]) [98] Client.zeroLine c) ∧
      Machine.Along (step threeFiles Client.firstBytes) (Undisturbed Client.firstBytes)
        (start masterConfig) askOnce := by
  obtain ⟨c₁, hihave, hlook⟩ := Machine.run_cons_eq_some.mp hask
  obtain rfl : c₁.lookAt.1 = c := Option.some.inj hlook
  have hmore : c₁.downChunks ≠ [] := by
    obtain ⟨-, hdown, -⟩ := Client.processIHAVE_frame hihave
    rw [hdown]
    exact List.cons_ne_nil _ _
  have hcommand : Machine.run (step threeFiles Client.firstBytes) (start masterConfig)
      [.command getCommand, .download] =
        some (loading (masterConfig.setFiles [97] [98]) [98] Client.zeroLine
          (.start 1 Client.zeroLine)) :=
    run_command scanCommand_getCommand
  have hstep : step threeFiles Client.firstBytes
      (loading (masterConfig.setFiles [97] [98]) [98] Client.zeroLine (.start 1 Client.zeroLine))
      (.ihave Client.zeroIHAVE (some 0)) = some
        (loading (masterConfig.setFiles [97] [98]) [98] Client.zeroLine c₁) :=
    congrArg (Option.map (loading (masterConfig.setFiles [97] [98]) [98] Client.zeroLine)) hihave
  have hannounced := Machine.run_trans hcommand (Machine.run_single hstep)
  refine ⟨Machine.run_trans hannounced (run_lookAt_loading hmore),
    (Machine.along_append hannounced).mpr ⟨?_, along_lookAt_loading hmore⟩⟩
  -- the first command finds no download
  refine (Machine.along_cons_of_step rfl).mpr ⟨trivial, fun d hd ↦ ?_, fun _ _ ↦ ⟨trivial, ?_⟩⟩
  · cases hd
  · exact fun _ _ ↦ trivial

/-- The chunk is written to the file of the command, and no download is disturbed on the way. -/
theorem run_once : ∃ s d,
    Machine.run (step threeFiles Client.firstBytes) (start masterConfig) (askOnce ++ finishOnce) =
        some s ∧
      Machine.Along (step threeFiles Client.firstBytes) (Undisturbed Client.firstBytes)
        (start masterConfig) (askOnce ++ finishOnce) ∧
      s.downloads = [d] ∧ d.written = [([98], [(0, .fill 0)])] := by
  obtain ⟨c, c', hask, hsend, hdown, hdone, hfin, hdata, hid, hzeros⟩ := Client.run_zeros
  obtain ⟨hrun, halong⟩ := run_askOnce hask
  obtain ⟨-, hlook, hempty, hmoved⟩ := Client.lookAt_of_singleton hdown hdone hfin
  have hright : ∀ r ∈ c'.scanned.doneChunks, checkChunk Client.firstBytes
      (c'.scanned.chunks r).data (c'.scanned.chunks r).sha1 = true := by
    rw [hmoved, List.forall_mem_singleton]
    exact (congrArg (checkChunk Client.firstBytes · _) hdata).trans hzeros
  have hwritten : c'.scanned.chunks2file Client.firstBytes = [(0, .fill 0)] := by
    rw [Client.chunks2file_eq hempty hright, hmoved]
    exact congrArg₂ (fun id data ↦ [(Client.chunkOffset id, data)]) hid hdata
  rw [← show c'.lookAt.1 = c'.scanned from congrArg Prod.fst hlook] at hempty hmoved hright hwritten
  obtain ⟨s, d, hlast, halong', hdownloads, hd⟩ :=
    run_last_loading threeFiles (masterConfig.setFiles [97] [98]) Client.zeroLine 0 hsend
      (hdown ▸ List.cons_ne_nil _ _) hempty (hmoved ▸ List.cons_ne_nil _ _) hright
  rw [hwritten] at hd
  exact ⟨s, d, Machine.run_trans hrun hlast, (Machine.along_append hrun).mpr ⟨halong, halong'⟩,
    hdownloads, hd⟩

/-- A chunk of zeros is downloaded: it is written to the file of the command, and all is right
on the way. -/
theorem downloads_right_iff_once : ∃ s d,
    Machine.run (step threeFiles Client.firstBytes) (start masterConfig) (askOnce ++ finishOnce) =
        some s ∧
      s.downloads = [d] ∧ d.written = [([98], [(0, .fill 0)])] ∧
      ∀ fs, fs <+: askOnce ++ finishOnce → ∀ t,
        Machine.run (step threeFiles Client.firstBytes) (start masterConfig) fs = some t →
          t.Right := by
  obtain ⟨s, d, hrun, halong, hdownloads, hwritten⟩ := run_once
  exact ⟨s, d, hrun, hdownloads, hwritten, (downloads_right_iff hrun).mpr halong⟩

/-- The command is given a second time while the first download is running: its chunk is in no
queue that is looked at any more. -/
theorem not_downloads_right :
    ¬ ∀ (fopen : List UInt8 → Option (List UInt8)) (shahash : List UInt8 → List UInt8)
      (cfg : BtConfig) (es : List DownloaderEvent) (s : Downloader),
      Machine.run (step fopen shahash) (start cfg) es = some s → s.Right := by
  intro h
  have hrun : Machine.run (step threeFiles id) (start masterConfig)
      [.command getCommand, .download, .command getCommand, .download] = some _ := rfl
  have hserved := (h _ _ _ _ _ hrun).served 1 _ rfl 0 (by decide)
  rcases hserved with hfin | ⟨hfirst, -⟩
  · cases hfin
  · cases hfirst

end Downloader

end BitTorrent
