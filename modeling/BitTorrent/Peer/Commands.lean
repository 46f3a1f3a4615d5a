import BitTorrent.Download.Queues
import BitTorrent.Tracker.Lookup

/-!
# Commands

`process_get` hands the two names of a `GET` command to `process_download` through the
configuration.  There `chunk_file` is the master chunk file, in which `process_GET` looks for
what other peers ask: from the first command on it looks in the list of what was requested
last.
-/

namespace BitTorrent

/-- What the handlers of commands use of `bt_config_t`: the names of the files as strings, and
for each peer its `id`. -/
structure BtConfig where
  chunkFile : List UInt8
  outputFile : List UInt8
  maxConn : Int
  identity : Int16
  peers : List Int16

/-- `sscanf(line, "GET %120s %120s", chunkf, outf)`, where it finds both names. -/
def scanCommand (line : List UInt8) : Option (List UInt8 × List UInt8) :=
  match Stdio.cString line with
  | 71 :: 69 :: 84 :: s =>
      (Stdio.scanWordMax 120 s).bind fun (chunkf, s) ↦
        (Stdio.scanWordMax 120 s).map fun (outf, _) ↦ (chunkf, outf)
  | _ => none

namespace BtConfig

/-- The two `strcpy` of `process_get`. -/
def setFiles (cfg : BtConfig) (chunkfile outputfile : List UInt8) : BtConfig :=
  { cfg with chunkFile := chunkfile, outputFile := outputfile }

/-- The packets go to every configured peer but the peer itself. -/
def sendOthers (cfg : BtConfig) (pkts : List Packet) : List (PeerRef × Packet) :=
  pkts.flatMap fun pkt ↦
    (cfg.peers.zipIdx.filter fun peer ↦ peer.1 ≠ cfg.identity).map fun peer ↦ (peer.2, pkt)

/-- `process_download`: the globals it sets, and the WHOHAS packets it sends. -/
def processDownload (cfg : BtConfig) (fopen : List UInt8 → Option (List UInt8)) :
    Client × List (PeerRef × Packet) :=
  let chunkFile := fopen cfg.chunkFile
  let queuePkt := (listChunks chunkFile).bind fun chunks ↦ chunks2pkts chunks .whohas
  (Client.processDownload cfg.maxConn chunkFile, cfg.sendOthers (queuePkt.getD []))

/-- `process_get` -/
def processGet (cfg : BtConfig) (fopen : List UInt8 → Option (List UInt8))
    (chunkfile outputfile : List UInt8) : BtConfig × Client × List (PeerRef × Packet) :=
  let cfg := cfg.setFiles chunkfile outputfile
  (cfg, cfg.processDownload fopen)

/-- `handle_user_input`: the configuration, and the download if one is started. -/
def handleUserInput (cfg : BtConfig) (fopen : List UInt8 → Option (List UInt8))
    (line : List UInt8) : BtConfig × Option (Client × List (PeerRef × Packet)) :=
  match scanCommand line with
  | some (chunkf, outf) =>
      let (cfg, download) := cfg.processGet fopen chunkf outf
      (cfg, some download)
  | none => (cfg, none)

/-- The chunk `process_GET` gets from `get_data_chunk` for a packet. -/
def servedChunk (cfg : BtConfig) (fopen : List UInt8 → Option (List UInt8))
    (uncleared : Uncleared) (pkt : Packet) : Option ChunkData :=
  (Bytes.slice pkt.data 0 sha1HashSize).bind fun hash ↦
    getDataChunk fopen uncleared (fopen cfg.chunkFile) hash

end BtConfig

/-! ## After a command -/

section Command

variable {fopen : List UInt8 → Option (List UInt8)} {uncleared : Uncleared} {cfg : BtConfig}
  {line chunkfile outputfile : List UInt8} {pkt : Packet}

/-- A command changes the two names. -/
theorem handleUserInput_of_scanCommand (h : scanCommand line = some (chunkfile, outputfile)) :
    (cfg.handleUserInput fopen line).1 = cfg.setFiles chunkfile outputfile := by
  rw [BtConfig.handleUserInput, h]
  rfl

/-- From then on the requested list is searched. -/
theorem servedChunk_handleUserInput (h : scanCommand line = some (chunkfile, outputfile)) :
    (cfg.handleUserInput fopen line).1.servedChunk fopen uncleared pkt =
      (Bytes.slice pkt.data 0 sha1HashSize).bind fun hash ↦
        getDataChunk fopen uncleared (fopen chunkfile) hash := by
  rw [handleUserInput_of_scanCommand h]
  rfl

/-- The chunk that `process_GET` gets for a packet after a command is the one it got before. -/
def ServesAlike (fopen : List UInt8 → Option (List UInt8)) (uncleared : Uncleared) (cfg : BtConfig)
    (line : List UInt8) (pkt : Packet) : Prop :=
  (cfg.handleUserInput fopen line).1.servedChunk fopen uncleared pkt =
    cfg.servedChunk fopen uncleared pkt

/-- A text that does not start with `File:` names no data file. -/
theorem dataFileName_of_not_prefix {file : List UInt8}
    (h : ¬ [70, 105, 108, 101, 58] <+: file) (old : List UInt8) : dataFileName old file = old := by
  have hprefix : Stdio.cString ((Stdio.fgets trackerLineLen file).getD ([], [])).1 <+: file := by
    apply (List.takeWhile_prefix _).trans
    rw [Stdio.fgets]
    split
    · exact List.nil_prefix
    · exact ⟨_, Stdio.takeLine_append _ file⟩
  rw [dataFileName, scanFileName]
  split
  · next s hline =>
      rw [hline] at hprefix
      exact absurd ((List.prefix_append [70, 105, 108, 101, 58] s).trans hprefix) h
  · rfl

/-- Without such a text nothing is served, unless a name that is left in memory can be opened. -/
theorem getDataChunk_of_not_prefix {file hash : List UInt8}
    (h : ¬ [70, 105, 108, 101, 58] <+: file) (hleft : fopen uncleared.fileName = none) :
    getDataChunk fopen uncleared (some file) hash = none := by
  rw [getDataChunk, Option.bind_some, dataFileName_of_not_prefix h, hleft]
  rfl

/-- A chunk file that names a file other than `missing`. -/
def otherName (missing : List UInt8) : MasterFile where
  name := if missing = [102] then [103] else [102]
  lines := zeroMaster.lines
  name_ne := by split <;> exact List.cons_ne_nil _ _
  name_plain := by split <;> exact List.forall_mem_singleton.mpr (by decide)

/-- All files are there but one, and they name a file that is there. -/
def allBut (missing name : List UInt8) : Option (List UInt8) :=
  if name = missing then none else some (otherName missing).text

theorem isSome_allBut {missing name : List UInt8} (h : name ≠ missing) (uncleared : Uncleared)
    (hash : List UInt8) :
    (getDataChunk (allBut missing) uncleared (allBut missing name) hash).isSome = true := by
  have hopened : (otherName missing).openedName ≠ missing := by
    show ((if missing = [102] then [103] else [102]) : List UInt8).take 248 ≠ missing
    split
    · next heq =>
        rw [heq]
        decide
    · next hne => exact Ne.symm hne
  rw [isSome_getDataChunk]
  refine ⟨_, if_neg h, ?_⟩
  rw [dataFileName_text, allBut, if_neg hopened]
  rfl

/-- After a command the same chunk is served as before if the requested list has the bytes of
the chunk file, or both cannot be opened; whatever files there are, only if it is the chunk
file itself.  With a list that does not start with `File:`, and a name in memory that cannot be
opened, no chunk is served any more. -/
theorem served_after_command_iff (h : scanCommand line = some (chunkfile, outputfile))
    (cfg : BtConfig) :
    (∀ fopen uncleared pkt, fopen chunkfile = fopen cfg.chunkFile →
        ServesAlike fopen uncleared cfg line pkt) ∧
      ((∀ fopen uncleared pkt, ServesAlike fopen uncleared cfg line pkt) ↔
        chunkfile = cfg.chunkFile) ∧
      ∀ fopen uncleared pkt list, fopen chunkfile = some list →
        ¬ [70, 105, 108, 101, 58] <+: list → fopen uncleared.fileName = none →
        (ServesAlike fopen uncleared cfg line pkt ↔
          cfg.servedChunk fopen uncleared pkt = none) := by
  have hsame : ∀ fopen uncleared pkt, fopen chunkfile = fopen cfg.chunkFile →
      ServesAlike fopen uncleared cfg line pkt := by
    intro fopen uncleared pkt hfile
    rw [ServesAlike, servedChunk_handleUserInput h, hfile]
    rfl
  refine ⟨hsame, ⟨fun hall ↦ ?_, fun hname fopen uncleared pkt ↦ ?_⟩, ?_⟩
  · by_contra hne
    -- all that is not there is the list
    have halike := hall (allBut chunkfile) .zero (makeGET (List.replicate 20 0))
    have hslice : Bytes.slice (makeGET (List.replicate 20 0)).data 0 sha1HashSize =
        some (List.replicate 20 0) := rfl
    rw [ServesAlike, servedChunk_handleUserInput h, BtConfig.servedChunk, hslice, Option.bind_some,
      Option.bind_some] at halike
    have hbefore := isSome_allBut (Ne.symm hne) .zero (List.replicate 20 0)
    rw [← halike, allBut, if_pos rfl] at hbefore
    exact Bool.false_ne_true hbefore
  · exact hsame fopen uncleared pkt (congrArg fopen hname)
  · intro fopen uncleared pkt list hfile hplain hleft
    have hafter : (Bytes.slice pkt.data 0 sha1HashSize).bind (fun hash ↦
        getDataChunk fopen uncleared (fopen chunkfile) hash) = none := by
      rw [hfile, Option.bind_eq_none_iff]
      intro hash _
      exact getDataChunk_of_not_prefix hplain hleft
    rw [ServesAlike, servedChunk_handleUserInput h, hafter]
    exact eq_comm

/-- `GET a b` -/
def getCommand : List UInt8 := [71, 69, 84, 32, 97, 32, 98, 10]

/-- A master chunk file `m`, its data file `f`, and a list `a` of what is requested. -/
def threeFiles (name : List UInt8) : Option (List UInt8) :=
  if name = [109] then some oneLineChunkFile
  else if name = [102] then some [1]
  else if name = [97] then some zeroHashFile
  else none

/-- A peer with the master chunk file. -/
def masterConfig : BtConfig where
  chunkFile := [109]
  outputFile := [111]
  maxConn := 1
  identity := 1
  peers := [1, 2]

theorem scanCommand_getCommand : scanCommand getCommand = some ([97], [98]) := by decide

/-- The same with a copy of the master chunk file in the place of the list. -/
def copiedFile (name : List UInt8) : Option (List UInt8) :=
  if name = [97] then some oneLineChunkFile else threeFiles name

/-- With the copy the chunk is served before and after the command; with the list, which does not
start with `File:`, it is not served alike, since it was served before. -/
theorem served_after_command_iff_get :
    (masterConfig.servedChunk copiedFile .zero (makeGET (List.replicate 20 0))).isSome = true ∧
      ServesAlike copiedFile .zero masterConfig getCommand (makeGET (List.replicate 20 0)) ∧
      ¬ ServesAlike threeFiles .zero masterConfig getCommand (makeGET (List.replicate 20 0)) := by
  have hslice : Bytes.slice (makeGET (List.replicate 20 0)).data 0 sha1HashSize =
      some (List.replicate 20 0) := rfl
  have hserved : ∀ fopen, fopen [109] = some oneLineChunkFile → (fopen [102]).isSome = true →
      (masterConfig.servedChunk fopen .zero (makeGET (List.replicate 20 0))).isSome = true := by
    intro fopen hm hf
    rw [BtConfig.servedChunk, hslice, Option.bind_some, isSome_getDataChunk]
    refine ⟨oneLineChunkFile, hm, ?_⟩
    rw [show dataFileName Uncleared.zero.fileName oneLineChunkFile = [102] by decide]
    exact hf
  obtain ⟨hcopy, -, hlist⟩ := served_after_command_iff scanCommand_getCommand masterConfig
  refine ⟨hserved copiedFile rfl rfl, hcopy _ _ _ rfl, fun halike ↦ ?_⟩
  have hnone := (hlist threeFiles .zero _ zeroHashFile rfl (by decide) rfl).mp halike
  have hsome := hserved threeFiles rfl rfl
  rw [hnone] at hsome
  exact Bool.false_ne_true hsome

/-- The chunk is served before the command, and not after it. -/
theorem not_served_after_command :
    ¬ ∀ (fopen : List UInt8 → Option (List UInt8)) (uncleared : Uncleared) (cfg : BtConfig)
      (line : List UInt8) (pkt : Packet), (scanCommand line).isSome = true →
        (cfg.handleUserInput fopen line).1.servedChunk fopen uncleared pkt =
          cfg.servedChunk fopen uncleared pkt := by
  intro h
  have heq := h threeFiles .zero masterConfig getCommand (makeGET (List.replicate 20 0)) (by decide)
  have hslice : Bytes.slice (makeGET (List.replicate 20 0)).data 0 sha1HashSize =
      some (List.replicate 20 0) := rfl
  rw [servedChunk_handleUserInput scanCommand_getCommand, BtConfig.servedChunk, hslice,
    Option.bind_some, Option.bind_some] at heq
  have hbefore : (getDataChunk threeFiles .zero (threeFiles [109]) (List.replicate 20 0)).isSome =
      true := isSome_getDataChunk.mpr ⟨oneLineChunkFile, rfl, by decide⟩
  have hplain : ¬ [70, 105, 108, 101, 58] <+: zeroHashFile := by decide
  have hafter : getDataChunk threeFiles .zero (threeFiles [97]) (List.replicate 20 0) = none :=
    getDataChunk_of_not_prefix hplain rfl
  rw [show masterConfig.chunkFile = [109] from rfl, hafter] at heq
  rw [← heq] at hbefore
  exact Bool.false_ne_true hbefore

end Command

end BitTorrent
