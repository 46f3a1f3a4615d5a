import Mathlib.Data.Nat.Cast.Defs
import BitTorrent.Library.Endian
import BitTorrent.Library.ShortestPath

/-!
# The network simulator `hupsim.pl`

Peers that run with `SPIFFY_ROUTER` set send every datagram to the simulator, behind a
header that names the sending node and both addresses.  The simulator hands it from
router to router, along routes that `createTable` finds, each with a queue that drops
what comes when it is full, and at last to the socket of the destination.

Times are of any type: Perl computes them in floating point.  `none` is where the script
dies.  The `while` loop in `run` is taken turn by turn; its packets are due when their
time has come, and a turn may be put off.  What is printed, and the time for which the
main loop sleeps, are left out.
-/

namespace BitTorrent

open Endian ShortestPath

variable {T : Type} [NatCast T] [Add T] [Div T] [LE T] [DecidableLE T]

/-- `$QUEUEMAX` -/
def queueMax : Nat := 10

/-- `$PACKETSIZEMAX` -/
def packetSizeMax : Nat := 2048

/-- `$INFINITY` -/
def infinity : Nat := 65535

/-! ## The package `NSQueue` -/

/-- A queue, with the time at which each of its packets is due. -/
structure NSQueue (T : Type) where
  rate : Nat
  latency : T
  max : Nat
  size : Nat
  dropped : Nat
  queue : List (List UInt8 × T)

namespace NSQueue

/-- `new`; a maximum of zero or none at all stands for `$QUEUEMAX`. -/
def new (ratebps : Nat) (latency : T) (max : Option Nat) : NSQueue T where
  rate := ratebps / 8
  latency
  max := match max with
    | none => queueMax
    | some 0 => queueMax
    | some m => m
  size := 0
  dropped := 0
  queue := []

/-- `enQ` -/
def enQ (q : NSQueue T) (pkt : List UInt8) (vtime : T) : Option (NSQueue T) :=
  if q.max ≤ q.queue.length then some { q with dropped := q.dropped + 1 }
  else if q.rate = 0 then none
  else
    let packSize := pkt.length
    let txTime := q.latency + (packSize : T) / (q.rate : T) + vtime
    let txTime := if q.queue.isEmpty then txTime else txTime + (q.size : T) / (q.rate : T)
    some { q with queue := q.queue ++ [(pkt, txTime)], size := q.size + packSize }

/-- The `shift` in `run`, when the packet in front is due. -/
def shiftDue (q : NSQueue T) (now : T) : Option (List UInt8 × NSQueue T) :=
  match q.queue with
  | [] => none
  | (pkt, pTime) :: rest =>
      if pTime ≤ now then some (pkt, { q with queue := rest, size := q.size - pkt.length })
      else none

end NSQueue

/-! ## The package `NSRouter` -/

/-- `unpack` with a template of fields of `N`, four bytes each, and `n`, two bytes each.  A field
for which there are not enough bytes left gives no value and takes none, so that the next one is
tried at the same place. -/
def unpack : List Nat → List UInt8 → List Nat
  | [], _ => []
  | size :: template, pkt =>
      if size ≤ pkt.length then ofBytes .big (pkt.take size) :: unpack template (pkt.drop size)
      else unpack template pkt

/-- The address 0.0.0.0 is replaced by 127.0.0.1. -/
def localIP (ip : UInt32) : UInt32 := if ip = 0 then 0x7f000001 else ip

/-- `$nodeID`; where there is no value it counts as zero. -/
def srcID (pkt : List UInt8) : Nat := (unpack [4] pkt).getD 0 0

/-- The key under which `recv` looks for the destination: the third and the fifth of the values
of `unpack("NNNnn", $$pkt)`. -/
def destKey (pkt : List UInt8) : UInt32 × UInt16 :=
  let values := unpack [4, 4, 4, 2, 2] pkt
  (localIP (UInt32.ofNat (values.getD 2 0)), UInt16.ofNat (values.getD 4 0))

/-- A router.  `routes` has the queue for the packets to each neighbour, `routingTable` the
neighbour for each destination, and `sent` what was sent to the socket of the node. -/
structure NSRouter (T : Type) where
  id : Nat
  routes : Nat → Option (NSQueue T)
  routingTable : Nat → Option Nat
  sent : List (List UInt8)
  bytesSent : Int

namespace NSRouter

/-- `new` -/
def new (id : Nat) : NSRouter T where
  id
  routes _ := none
  routingTable _ := none
  sent := []
  bytesSent := 0

/-- `addRoute` -/
def addRoute (r : NSRouter T) (routeRef rate : Nat) (latency : T) (max : Option Nat) :
    NSRouter T :=
  { r with routes := Function.update r.routes routeRef (some (.new rate latency max)) }

/-- `recv` -/
def recv (nodes : UInt32 × UInt16 → Option Nat) (r : NSRouter T) (pkt : List UInt8) (vtime : T) :
    Option (NSRouter T) :=
  match nodes (destKey pkt) with
  | none => some r
  | some dest =>
      if dest = r.id then
        some { r with sent := r.sent ++ [pkt], bytesSent := r.bytesSent + (pkt.length - 16) }
      else do
        let routeRef ← r.routingTable dest
        let q ← r.routes routeRef
        let q ← q.enQ pkt vtime
        return { r with routes := Function.update r.routes routeRef (some q) }

end NSRouter

/-! ## The simulator -/

/-- A line of the map file: two routers and the link between them. -/
structure MapLine (T : Type) where
  src : Nat
  dst : Nat
  rate : Nat
  latency : T
  max : Option Nat

/-- `@routers`, its length, and `%nodes`. -/
structure Simulator (T : Type) where
  count : Nat
  routers : Nat → Option (NSRouter T)
  nodes : UInt32 × UInt16 → Option Nat

/-- What happens to the simulator: a datagram comes in, or `run` has a turn with the queue
of router `src` for router `dst`; the clock is read before and after the `shift`. -/
inductive SimEvent (T : Type) where
  | arrive (pkt : List UInt8) (now : T)
  | forward (src dst : Nat) (now later : T)

namespace Simulator

/-- A router that is not defined yet is created. -/
def addRouter (s : Simulator T) (id : Nat) : Simulator T :=
  match s.routers id with
  | some _ => s
  | none =>
      { s with
        count := max s.count (id + 1)
        routers := Function.update s.routers id (some (.new id)) }

/-- `addRoute` on a router. -/
def addRoute (s : Simulator T) (src dst : Nat) (l : MapLine T) : Simulator T :=
  { s with
    routers := Function.update s.routers src
      ((s.routers src).map fun r ↦ r.addRoute dst l.rate l.latency l.max) }

/-- What `main` does with a line of the map file. -/
def addLine (s : Simulator T) (l : MapLine T) : Simulator T :=
  (((s.addRouter l.dst).addRouter l.src).addRoute l.dst l.src l).addRoute l.src l.dst l

/-- The routers that are defined, in the order of `@routers`. -/
def ids (s : Simulator T) : List Nat :=
  (List.range s.count).filter fun i ↦ (s.routers i).isSome

/-- The routers to which a router has a route, in the order of its routes. -/
def neighbours (s : Simulator T) (v : Nat) : List Nat :=
  match s.routers v with
  | none => []
  | some r => (List.range s.count).filter fun w ↦ (r.routes w).isSome

/-! ### `createTable` -/

/-- The base state of the vertexes; the predecessors are those of the last search. -/
def baseLabels (self : Nat) (predecessor : Nat → Option Nat) : Labels Nat where
  done _ := false
  distance v := if v = self then 0 else infinity
  predecessor

/-- The loop that figures out which vertex to visit next. -/
def nextVertex (l : Labels Nat) (vertexes : List Nat) : Option Nat × Nat :=
  vertexes.foldl
    (fun best v ↦ if !l.done v && l.distance v < best.2 then (some v, l.distance v) else best)
    (none, infinity + 1)

/-- One turn of the search. -/
def visitNext (s : Simulator T) (l : Labels Nat) : Labels Nat :=
  match (nextVertex l s.ids).1 with
  | none => l
  | some next => l.visit next (s.neighbours next)

/-- The search, with as many turns as there are vertexes. -/
def search (s : Simulator T) (self : Nat) (predecessor : Nat → Option Nat) : Labels Nat :=
  s.ids.foldl (fun l _ ↦ s.visitNext l) (baseLabels self predecessor)

/-- The loop that fills `routingTable`, with at most `n` steps back from each vertex. -/
def fillTable (r : NSRouter T) (predecessor : Nat → Option Nat) (n : Nat) :
    List Nat → (Nat → Option Nat) → Option (Nat → Option Nat)
  | [], table => some table
  | v :: vs, table =>
      if v = r.id then fillTable r predecessor n vs table
      else do
        let startRoute ← Labels.firstHop predecessor r.id n v
        let _ ← r.routes startRoute
        fillTable r predecessor n vs (Function.update table v (some startRoute))

/-- `createTable`, with the predecessors before and after it.  Going back from a vertex
takes fewer steps than there are routers, or never ends. -/
def createTable (s : Simulator T) (r : NSRouter T) (predecessor : Nat → Option Nat) :
    Option (NSRouter T × (Nat → Option Nat)) := do
  let l := s.search r.id predecessor
  let table ← fillTable r l.predecessor s.count s.ids fun _ ↦ none
  return ({ r with routingTable := table }, l.predecessor)

/-- The loop in `main` that makes the tables of all routers. -/
def createTables : List Nat → Simulator T → (Nat → Option Nat) → Option (Simulator T)
  | [], s, _ => some s
  | v :: vs, s, predecessor =>
      match s.routers v with
      | none => createTables vs s predecessor
      | some r => do
          let (r, predecessor) ← s.createTable r predecessor
          createTables vs { s with routers := Function.update s.routers v (some r) } predecessor

/-- The simulator when `main` starts to listen. -/
def start (nodes : UInt32 × UInt16 → Option Nat) (lines : List (MapLine T)) :
    Option (Simulator T) :=
  let s := lines.foldl addLine { count := 0, routers := fun _ ↦ none, nodes }
  createTables s.ids s fun _ ↦ none

/-! ### The main loop -/

/-- A router receives a packet. -/
def recvAt (s : Simulator T) (id : Nat) (pkt : List UInt8) (vtime : T) : Option (Simulator T) := do
  let r ← s.routers id
  let r ← r.recv s.nodes pkt vtime
  return { s with routers := Function.update s.routers id (some r) }

/-- The steps of the simulator. -/
def step (s : Simulator T) : SimEvent T → Option (Simulator T)
  | .arrive pkt now =>
      let pkt := pkt.take packetSizeMax
      if (s.routers (srcID pkt)).isSome then s.recvAt (srcID pkt) pkt now else some s
  | .forward src dst now later => do
      let r ← s.routers src
      let q ← r.routes dst
      let (pkt, q) ← q.shiftDue now
      let r := { r with routes := Function.update r.routes dst (some q) }
      recvAt { s with routers := Function.update s.routers src (some r) } dst pkt later

end Simulator

end BitTorrent
