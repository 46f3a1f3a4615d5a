import BitTorrent.Tracker.HashLists
import BitTorrent.Upload.Window
import BitTorrent.Wire
import BitTorrent.Peer.Pools
import BitTorrent.Upload.Timeout
import BitTorrent.Upload.Completion
import BitTorrent.Upload.Independence
import BitTorrent.Download.Reassembly
import BitTorrent.Download.Finished
import BitTorrent.Link.Origin
import BitTorrent.Link.Stale
import BitTorrent.Download.Sharing
import BitTorrent.Peer.Bounds
import BitTorrent.Peer.Frame
import BitTorrent.Library.Stdio
import BitTorrent.Tracker.Files
import BitTorrent.Tracker.Announce
import BitTorrent.Download.Verification
import BitTorrent.Swarm.Uploads
import BitTorrent.Swarm.Quiescent
import BitTorrent.Upload.InFlight
import BitTorrent.Upload.Duplicates
import BitTorrent.Upload.Recovery
import BitTorrent.Library.Channel
import BitTorrent.Upload.Lossless
import BitTorrent.Download.Choice
import BitTorrent.Download.Holders
import BitTorrent.Download.Requests
import BitTorrent.Download.Queues
import BitTorrent.Peer.Commands
import BitTorrent.Peer.Downloads
import BitTorrent.Chunk.Buffers
import BitTorrent.Library.Lines
import BitTorrent.Library.Numerals
import BitTorrent.Tracker.Listing
import BitTorrent.Tracker.Lookup
import BitTorrent.Library.OutFile
import BitTorrent.Download.Output
import BitTorrent.Download.Checking
import BitTorrent.InputBuffer
import BitTorrent.Library.Malloc
import BitTorrent.Peer.Ownership
import BitTorrent.Library.Linked
import BitTorrent.Queue
import BitTorrent.Tracker.MakeChunks
import BitTorrent.Library.BlockHash
import BitTorrent.Sha
import BitTorrent.Sha.Standard
import BitTorrent.Sha.Stream
import BitTorrent.Sha.Collision
import BitTorrent.Download.Resume
import BitTorrent.Peer.Loading
import BitTorrent.Peer.Integrity
import BitTorrent.Peer.Transfer
import BitTorrent.Library.Rounding
import BitTorrent.Upload.Single
import BitTorrent.Library.Forwarding
import BitTorrent.Library.ShortestPath
import BitTorrent.Router
import BitTorrent.Router.Topology
import BitTorrent.Router.Table
import BitTorrent.Router.System
import BitTorrent.Router.Delivery
import BitTorrent.Spiffy
import BitTorrent.Peer.Inbound
import BitTorrent.BtParse
import BitTorrent.Router.Transport
