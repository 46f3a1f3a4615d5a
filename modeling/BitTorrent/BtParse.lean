import Mathlib.Data.List.Find
import BitTorrent.Library.Lines
import BitTorrent.Library.Numerals
import BitTorrent.Spiffy

/-!
# The node file

`bt_parse.c` and the simulator read the same file: a line for each node, with its number, its
host and its port, and lines that start with `#`.  Both resolve the host with `gethostbyname`.

A peer keeps its list in the order opposite to that of the file, so that in each of its
lookups, as in those of the simulator, the last line in question counts.
-/

namespace BitTorrent

open Stdio

/-- `BT_FILENAME_LEN` -/
def btFilenameLen : Nat := 255

/-- `bt_peer_t`, without its link. -/
structure BtPeer where
  id : Int16
  addr : SockAddr
deriving DecidableEq, Repr

/-! ## `bt_parse.c` -/

/-- The variables of `bt_parse_peer_list` that keep their values from line to line. -/
structure PeerScan where
  nodeid : Int
  hostname : List UInt8
  port : Int

/-- `sscanf(line, "%d %s %d", &nodeid, hostname, &port)`: what is not found in the line stays
as it was.  A line without anything in it is the end of the input. -/
def PeerScan.sscanf (old : PeerScan) (line : List UInt8) : PeerScan × Int :=
  let s := cString line
  match scanInt s with
  | none => (old, if skipSpace s = [] then -1 else 0)
  | some (nodeid, s) =>
      match scanWordMax s.length s with
      | none => ({ old with nodeid }, 1)
      | some (word, s) =>
          let hostname := store old.hostname word
          match scanInt s with
          | none => ({ old with nodeid, hostname }, 2)
          | some (port, _) => ({ nodeid, hostname, port }, 3)

/-- The loop of `bt_parse_peer_list`; `none` where an assertion fails.  `gethostbyname` gives an
address as the number its bytes stand for in network order. -/
def parsePeersLoop (o : Endian.ByteOrder) (gethostbyname : List UInt8 → Option UInt32) :
    List (List UInt8) → PeerScan → List BtPeer → Option (List BtPeer)
  | [], _, peers => some peers
  | line :: lines, scan, peers =>
      if line.head? = some 35 then parsePeersLoop o gethostbyname lines scan peers
      else
        let (scan, found) := scan.sscanf line
        if found = 0 then none
        else
          (gethostbyname (cString scan.hostname)).bind fun ip ↦
            let node : BtPeer :=
              { id := Int16.ofInt scan.nodeid
                addr := ⟨htonl o ip, htons o (UInt16.ofInt scan.port)⟩ }
            parsePeersLoop o gethostbyname lines scan (node :: peers)

/-- `bt_parse_peer_list`.  `stale` is what its variables hold at first. -/
def btParsePeerList (o : Endian.ByteOrder) (gethostbyname : List UInt8 → Option UInt32)
    (stale : PeerScan) (file : List UInt8) : Option (List BtPeer) :=
  parsePeersLoop o gethostbyname (lines btFilenameLen file) stale []

/-- `bt_peer_info` -/
def btPeerInfo (peers : List BtPeer) (peerId : Int) : Option BtPeer :=
  peers.find? fun p ↦ p.id.toInt == peerId

/-- The end of `bt_parse_command_line`: `myport`, for an identity that is in the list. -/
def btMyPort (o : Endian.ByteOrder) (peers : List BtPeer) (identity : Int16) : Option UInt16 :=
  if identity = 0 then none
  else (btPeerInfo peers identity.toInt).map fun p ↦ ntohs o p.addr.port

/-! ## `hupsim.pl` -/

/-- A line of the node file, split at its blanks. -/
structure NodeLine where
  node : Nat
  ip : List UInt8
  port : Nat
deriving DecidableEq, Repr

/-- `%nodes`, as `main` builds it from the lines of the node file.  A host that is not found
leaves a key without an address, which no packet has. -/
def nodeKeys (gethostbyname : List UInt8 → Option UInt32) (ls : List NodeLine) :
    UInt32 × UInt16 → Option Nat :=
  ls.foldl
    (fun nodes l ↦
      match gethostbyname l.ip with
      | none => nodes
      | some ip => Function.update nodes (ip, UInt16.ofNat l.port) (some l.node))
    fun _ ↦ none

/-! ## Node files -/

/-- What stands in a line of a node file. -/
inductive NodeText where
  | comment (text : List UInt8)
  | node (l : NodeLine)

namespace NodeText

/-- The line, without its newline. -/
def print : NodeText → List UInt8
  | comment text => 35 :: text
  | node l => decimal l.node ++ 32 :: (l.ip ++ 32 :: decimal l.port)

/-- A line of its own, which fits into the array it is read into. -/
structure Ok (t : NodeText) : Prop where
  noNewline : 10 ∉ t.print
  fits : t.print.length + 1 < btFilenameLen

end NodeText

/-- A file of such lines. -/
def printNodes (ts : List NodeText) : List UInt8 := ts.flatMap fun t ↦ t.print ++ [10]

/-- The nodes a file names. -/
def nodeLines (ts : List NodeText) : List NodeLine :=
  ts.filterMap fun
    | .comment _ => none
    | .node l => some l

/-- A node that a peer can have: its number is a `short`, its host is a word that
`gethostbyname` resolves, and its port is one. -/
structure NodeLine.Ok (gethostbyname : List UInt8 → Option UInt32) (l : NodeLine) : Prop where
  node : l.node < 2 ^ 15
  ip_ne : l.ip ≠ []
  ip_word : ∀ c ∈ l.ip, isSpace c = false ∧ c ≠ 0
  port : l.port < 2 ^ 16
  found : (gethostbyname l.ip).isSome = true

/-- The entry of a node in the list of a peer. -/
def NodeLine.toPeer (o : Endian.ByteOrder) (gethostbyname : List UInt8 → Option UInt32)
    (l : NodeLine) : BtPeer where
  id := Int16.ofInt l.node
  addr := ⟨htonl o ((gethostbyname l.ip).getD 0), htons o (UInt16.ofNat l.port)⟩

section Parse

variable {gethostbyname : List UInt8 → Option UInt32} {l : NodeLine} {t : NodeText}
  {ts : List NodeText}

/-! ## One line -/

theorem cString_print (h : l.Ok gethostbyname) :
    cString ((NodeText.node l).print ++ [10]) = (NodeText.node l).print ++ [10] := by
  rw [cString, List.takeWhile_eq_self_iff]
  intro c hc
  rw [decide_eq_true_iff]
  simp only [NodeText.print, List.mem_append, List.mem_cons, List.not_mem_nil, or_false] at hc
  have hdigit : ∀ n, c ∈ decimal n → c ≠ 0 := fun n hn ↦ by
    rintro rfl
    exact absurd (isDigit_of_mem_decimal hn) (by decide)
  rcases hc with (hc | rfl | hc | rfl | hc) | rfl
  · exact hdigit _ hc
  · decide
  · exact (h.ip_word c hc).2
  · decide
  · exact hdigit _ hc
  · decide

/-- What `sscanf` finds in the line of a node. -/
theorem sscanf_print (h : l.Ok gethostbyname) (old : PeerScan) :
    old.sscanf ((NodeText.node l).print ++ [10]) =
      ({ nodeid := l.node, hostname := store old.hostname l.ip, port := l.port }, 3) := by
  have hnode : toInt l.node = l.node := toInt_of_lt (Nat.lt_trans h.node (by decide))
  have hport : toInt l.port = l.port := toInt_of_lt (Nat.lt_trans h.port (by decide))
  have hword : scanWordMax (32 :: (l.ip ++ 32 :: (decimal l.port ++ [10]))).length
      (32 :: (l.ip ++ 32 :: (decimal l.port ++ [10]))) =
        some (l.ip, 32 :: (decimal l.port ++ [10])) := by
    rw [scanWordMax_cons rfl]
    refine scanWordMax_append h.ip_ne (fun c hc ↦ (h.ip_word c hc).1) ?_ ?_
    · rintro c ⟨⟩
      rfl
    · rw [List.length_cons, List.length_append]
      omega
  have hline : (NodeText.node l).print ++ [10] =
      decimal l.node ++ 32 :: (l.ip ++ 32 :: (decimal l.port ++ [10])) := by
    simp [NodeText.print]
  rw [PeerScan.sscanf, cString_print h, hline, scanInt_append (decimal_ne_nil _)
    (fun _ ↦ isDigit_of_mem_decimal) rfl, digitsValue_decimal, hnode]
  simp only [hword]
  rw [scanInt_cons rfl, scanInt_append (decimal_ne_nil _) (fun _ ↦ isDigit_of_mem_decimal) rfl,
    digitsValue_decimal, hport]

/-! ## The file -/

theorem textLines_printNodes (hts : ∀ t ∈ ts, t.Ok) :
    textLines (printNodes ts) = ts.map fun t ↦ t.print ++ [10] :=
  textLines_flatMap fun t ht ↦ (hts t ht).noNewline

/-- The loop over its lines. -/
theorem parsePeersLoop_print (o : Endian.ByteOrder) (hls : ∀ l ∈ nodeLines ts, l.Ok gethostbyname)
    (scan : PeerScan) (peers : List BtPeer) :
    parsePeersLoop o gethostbyname (ts.map fun t ↦ t.print ++ [10]) scan peers =
      some ((nodeLines ts).reverse.map (·.toPeer o gethostbyname) ++ peers) := by
  induction ts generalizing scan peers with
  | nil => rfl
  | cons t ts ih =>
      rw [List.map_cons, parsePeersLoop]
      cases t with
      | comment text =>
          rw [if_pos (by rfl)]
          exact ih hls scan peers
      | node l =>
          have hl : l.Ok gethostbyname := hls l (List.mem_cons_self ..)
          have hhead : ((NodeText.node l).print ++ [10]).head? ≠ some 35 := by
            obtain ⟨d, ds, hd⟩ := List.exists_cons_of_ne_nil (decimal_ne_nil l.node)
            rw [NodeText.print, hd]
            rintro ⟨⟩
            exact absurd (isDigit_of_mem_decimal (hd ▸ List.mem_cons_self ..)) (by decide)
          have hname : cString (store scan.hostname l.ip) = l.ip :=
            cString_append_zero (fun h0 ↦ (hl.ip_word 0 h0).2 rfl) _
          obtain ⟨ip, hip⟩ := Option.isSome_iff_exists.mp hl.found
          have hpeer : l.toPeer o gethostbyname =
              ⟨Int16.ofInt l.node, ⟨htonl o ip, htons o (UInt16.ofInt l.port)⟩⟩ := by
            have hport : UInt16.ofInt l.port = UInt16.ofNat l.port := by
              rw [UInt16.ofInt, Int.emod_eq_of_lt (by omega) (by exact_mod_cast hl.port),
                Int.toNat_natCast]
            rw [NodeLine.toPeer, hip, hport]
            rfl
          rw [if_neg hhead, sscanf_print hl]
          simp only [hname, hip, Option.bind_some]
          rw [if_neg (by decide), ← hpeer, ih fun l' hl' ↦ hls l' (List.mem_cons_of_mem _ hl')]
          simp [nodeLines]

theorem btParsePeerList_print (o : Endian.ByteOrder) (hts : ∀ t ∈ ts, t.Ok)
    (hls : ∀ l ∈ nodeLines ts, l.Ok gethostbyname) (stale : PeerScan) :
    btParsePeerList o gethostbyname stale (printNodes ts) =
      some ((nodeLines ts).reverse.map (·.toPeer o gethostbyname)) := by
  have hshort : ∀ line ∈ textLines (printNodes ts), line.length < btFilenameLen := by
    rw [textLines_printNodes hts]
    intro line hline
    obtain ⟨t, ht, rfl⟩ := List.mem_map.mp hline
    rw [List.length_append]
    exact (hts t ht).fits
  rw [btParsePeerList, lines_eq_textLines (by decide) hshort, textLines_printNodes hts,
    parsePeersLoop_print o hls, List.append_nil]

/-! ## Lookups -/

variable {ls : List NodeLine}

theorem toInt_id_toPeer (h : l.Ok gethostbyname) (o : Endian.ByteOrder) :
    (l.toPeer o gethostbyname).id.toInt = l.node := by
  have hlt := h.node
  exact Int16.toInt_ofInt_of_le (by omega) (by omega)

theorem btPeerInfo_toPeer (o : Endian.ByteOrder) (hls : ∀ l ∈ ls, l.Ok gethostbyname) (id : Nat) :
    btPeerInfo (ls.reverse.map (·.toPeer o gethostbyname)) id =
      (ls.filter (·.node = id)).getLast?.map (·.toPeer o gethostbyname) := by
  rw [btPeerInfo, List.find?_map, List.getLast?_filter]
  refine congrArg _ (List.find?_congr fun l hl ↦ ?_)
  rw [Function.comp_apply, toInt_id_toPeer (hls l (List.mem_reverse.mp hl)) o, Bool.eq_iff_iff,
    beq_iff_eq, decide_eq_true_iff, Int.natCast_inj]

theorem toNat_ofNat_port (h : l.Ok gethostbyname) : (UInt16.ofNat l.port).toNat = l.port :=
  UInt16.toNat_ofNat_of_lt' h.port

theorem getPeer_toPeer (o : Endian.ByteOrder) (hls : ∀ l ∈ ls, l.Ok gethostbyname) (ip : UInt32)
    (port : UInt16) :
    ((getPeer ((ls.reverse.map (·.toPeer o gethostbyname)).map BtPeer.addr) ⟨ip, htons o port⟩).bind
        ((ls.reverse.map (·.toPeer o gethostbyname))[·]?)) =
      (ls.filter (·.port = port.toNat)).getLast?.map (·.toPeer o gethostbyname) := by
  rw [getPeer, List.findIdx?_map, ← List.find?_eq_bind_findIdx?_getElem?, List.find?_map,
    List.getLast?_filter]
  apply congrArg
  refine List.find?_congr fun l hl ↦ ?_
  have hport := toNat_ofNat_port (hls l (List.mem_reverse.mp hl))
  rw [Function.comp_apply, Function.comp_apply, Bool.eq_iff_iff, beq_iff_eq, decide_eq_true_iff]
  show htons o (UInt16.ofNat l.port) = htons o port ↔ _
  constructor
  · intro h
    have hsame := congrArg (ntohs o) h
    rw [ntohs_htons, ntohs_htons] at hsame
    rw [← hport, hsame]
  · intro h
    rw [h, UInt16.ofNat_toNat]

theorem nodeKeys_concat (gethostbyname : List UInt8 → Option UInt32) (ls : List NodeLine)
    (l : NodeLine) :
    nodeKeys gethostbyname (ls ++ [l]) =
      match gethostbyname l.ip with
      | none => nodeKeys gethostbyname ls
      | some ip => Function.update (nodeKeys gethostbyname ls) (ip, UInt16.ofNat l.port)
          (some l.node) := by
  rw [nodeKeys, List.foldl_append]
  rfl

theorem nodeKeys_eq (gethostbyname : List UInt8 → Option UInt32) (ls : List NodeLine)
    (k : UInt32 × UInt16) :
    nodeKeys gethostbyname ls k =
      (ls.filter fun l ↦ gethostbyname l.ip = some k.1 ∧ UInt16.ofNat l.port = k.2).getLast?.map
        (·.node) := by
  induction ls using List.reverseRecOn with
  | nil => rfl
  | append_singleton ls l ih =>
      rw [nodeKeys_concat, List.filter_append]
      cases hip : gethostbyname l.ip with
      | none => simp [hip, ih]
      | some ip =>
          by_cases hk : k = (ip, UInt16.ofNat l.port)
          · subst hk
            simp [hip]
          · have hne : ¬ (ip = k.1 ∧ UInt16.ofNat l.port = k.2) := fun h ↦ hk (by rw [h.1, h.2])
            simp [hip, hne, Function.update_of_ne hk, ih]

/-- In each lookup the last line in question counts: `bt_peer_info` looks for a number,
`get_peer` for a port, and the simulator for an address and a port. -/
theorem exists_peers_of_nodeFile (hts : ∀ t ∈ ts, t.Ok)
    (hls : ∀ l ∈ nodeLines ts, l.Ok gethostbyname) (o : Endian.ByteOrder) (stale : PeerScan) :
    ∃ peers, btParsePeerList o gethostbyname stale (printNodes ts) = some peers ∧
      (∀ id : Nat, btPeerInfo peers id =
        ((nodeLines ts).filter (·.node = id)).getLast?.map (·.toPeer o gethostbyname)) ∧
      (∀ ip port, ((getPeer (peers.map BtPeer.addr) ⟨ip, htons o port⟩).bind (peers[·]?)) =
        ((nodeLines ts).filter (·.port = port.toNat)).getLast?.map (·.toPeer o gethostbyname)) ∧
      ∀ k, nodeKeys gethostbyname (nodeLines ts) k =
        ((nodeLines ts).filter fun l ↦
          gethostbyname l.ip = some k.1 ∧ UInt16.ofNat l.port = k.2).getLast?.map (·.node) := by
  exact ⟨_, btParsePeerList_print o hts hls stale, btPeerInfo_toPeer o hls, getPeer_toPeer o hls,
    nodeKeys_eq gethostbyname _⟩

/-- A comment and two nodes on the local host, the second of which has moved. -/
def movedNode : List NodeText :=
  [.comment [105, 100], .node ⟨1, [49], 48001⟩, .node ⟨2, [49], 48002⟩, .node ⟨2, [49], 48003⟩]

/-- Every name is that of the local host. -/
def localHost (_ : List UInt8) : Option UInt32 := some 0x7f000001

theorem ok_localHost {node port : Nat} (hnode : node < 2 ^ 15) (hport : port < 2 ^ 16) :
    (⟨node, [49], port⟩ : NodeLine).Ok localHost where
  node := hnode
  ip_ne := List.cons_ne_nil _ _
  ip_word c hc := by
    rw [List.mem_singleton.mp hc]
    decide
  port := hport
  found := rfl

theorem exists_peers_of_nodeFile_moved : ∃ peers,
    btParsePeerList .little localHost ⟨0, [], 0⟩ (printNodes movedNode) = some peers ∧
      btPeerInfo peers (2 : Nat) = some ((⟨2, [49], 48003⟩ : NodeLine).toPeer .little localHost) ∧
      nodeKeys localHost (nodeLines movedNode) (0x7f000001, 48002) = some 2 := by
  have hts : ∀ t ∈ movedNode, t.Ok := by
    have hok : ∀ t ∈ movedNode, 10 ∉ t.print ∧ t.print.length + 1 < btFilenameLen := by
      decide +kernel
    exact fun t ht ↦ ⟨(hok t ht).1, (hok t ht).2⟩
  have hls : ∀ l ∈ nodeLines movedNode, l.Ok localHost := by
    simp only [movedNode, nodeLines, List.filterMap_cons, List.filterMap_nil, List.forall_mem_cons]
    refine ⟨?_, ?_, ?_, fun l hl ↦ absurd hl List.not_mem_nil⟩
    all_goals exact ok_localHost (by decide) (by decide)
  obtain ⟨peers, hpeers, hinfo, -, hkeys⟩ := exists_peers_of_nodeFile hts hls .little ⟨0, [], 0⟩
  refine ⟨peers, hpeers, (hinfo 2).trans ?_, (hkeys _).trans ?_⟩
  · rfl
  · rfl

end Parse

end BitTorrent
