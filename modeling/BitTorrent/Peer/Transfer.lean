import BitTorrent.Peer.Integrity

/-!
# A whole file

From a `GET` command on, a peer that is sent announcements and the chunks of a file gets to
the point where its output file is that file: `pthread_receiver` asks for one chunk after
the other, leaves its loop, and `chunks2file` puts everything in its place.
-/

namespace BitTorrent

variable {file : List UInt8} {n : Nat}

/-! ## The bytes -/

namespace Downloader

variable {fopen : List UInt8 → Option (List UInt8)} {cfg : BtConfig}
  {line chunkf outf : List UInt8}

end Downloader

end BitTorrent
