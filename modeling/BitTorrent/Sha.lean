import Mathlib.Data.List.Basic
import BitTorrent.Library.Bytes
import BitTorrent.Library.Endian

/-!
# SHA-1 as `sha.c` computes it

The build defines none of `WORDS_BIGENDIAN`, `RUNTIME_ENDIAN` and
`SHA1_FAST_COPY`, so `BYTESWAP` always swaps, the copying branch of `SHA1Update`
is the one compiled, and the twenty rounds of a group are written out.  The host
is little-endian: that is how `buffer.words` overlays `buffer.bytes`.

`sha1Update` has no value where a `memcpy` leaves its buffer or where the loop
would go on for ever.  `burnStack` only wipes the stack and is left out.
-/

namespace BitTorrent

/-! ## The macros -/

/-- `ROTL` -/
def rotl (x n : UInt32) : UInt32 := x <<< n ||| x >>> (32 - n)

/-- `ROTR` -/
def rotr (x n : UInt32) : UInt32 := x >>> n ||| x <<< (32 - n)

/-- `F_0_19` -/
def f_0_19 (x y z : UInt32) : UInt32 := z ^^^ (x &&& (y ^^^ z))

/-- `F_20_39` -/
def f_20_39 (x y z : UInt32) : UInt32 := x ^^^ y ^^^ z

/-- `F_40_59` -/
def f_40_59 (x y z : UInt32) : UInt32 := x &&& (y ||| z) ||| y &&& z

/-- `F_60_79` -/
def f_60_79 (x y z : UInt32) : UInt32 := x ^^^ y ^^^ z

/-- `K_0_19` -/
def k_0_19 : UInt32 := 0x5a827999

/-- `K_20_39` -/
def k_20_39 : UInt32 := 0x6ed9eba1

/-- `K_40_59` -/
def k_40_59 : UInt32 := 0x8f1bbcdc

/-- `K_60_79` -/
def k_60_79 : UInt32 := 0xca62c1d6

/-- `BYTESWAP` -/
def byteswap (x : UInt32) : UInt32 := rotr x 8 &&& 0xff00ff00 ||| rotl x 8 &&& 0x00ff00ff

/-- `_byteswap64` -/
def byteswap64 (x : UInt64) : UInt64 :=
  let a := (x >>> 32).toUInt32
  let b := x.toUInt32
  (byteswap b).toUInt64 <<< 32 ||| (byteswap a).toUInt64

/-- The variables `a` to `e` of `SHA1Guts`. -/
@[ext]
structure Working where
  (a b c d e : UInt32)

/-- The variables as `SHA1Guts` loads them from the words of a hash. -/
def Working.ofHash (hash : Vector UInt32 5) : Working :=
  { a := hash[0], b := hash[1], c := hash[2], d := hash[3], e := hash[4] }

/-- The words of a hash that the variables hold. -/
def Working.toHash (v : Working) : Vector UInt32 5 := #v[v.a, v.b, v.c, v.d, v.e]

/-- `DO_ROUND`, at the word that `W` points to. -/
def doRound (f : UInt32 → UInt32 → UInt32 → UInt32) (k : UInt32) (v : Working) (w : UInt32) :
    Working :=
  let temp := rotl v.a 5 + f v.b v.c v.d + v.e + w + k
  { a := temp, b := v.a, c := rotl v.b 30, d := v.c, e := v.d }

/-! ## The context -/

/-- The `buffer` of a context, by its `bytes`. -/
structure ShaBuffer where
  bytes : List UInt8
  size_eq : bytes.length = 64

/-- `memcpy(&sc->buffer.bytes[off], src, ..)`, inside the buffer. -/
def ShaBuffer.memcpy (buffer : ShaBuffer) (off : Nat) (src : List UInt8) : Option ShaBuffer :=
  if h : off + src.length ≤ 64 then
    some {
      bytes := buffer.bytes.take off ++ src ++ buffer.bytes.drop (off + src.length)
      size_eq := by
        simp only [List.length_append, List.length_take, List.length_drop, buffer.size_eq]
        omega }
  else none

/-- The sixteen `words` that overlay the bytes of the buffer. -/
def ShaBuffer.words (buffer : ShaBuffer) : List UInt32 :=
  (List.range 16).map fun i ↦
    UInt32.ofNat (Endian.ofBytes .little ((buffer.bytes.drop (4 * i)).take 4))

/-- `SHA1Context` -/
structure SHA1Context where
  totalLength : UInt64
  hash : Vector UInt32 5
  bufferLength : UInt32
  buffer : ShaBuffer

/-- `SHA1Init`; the buffer stays as it is. -/
def sha1Init (sc : SHA1Context) : SHA1Context :=
  { sc with
    totalLength := 0
    hash := #v[0x67452301, 0xefcdab89, 0x98badcfe, 0x10325476, 0xc3d2e1f0]
    bufferLength := 0 }

/-- One step of the second loop of `SHA1Guts`: `W3`, `W8`, `W14` and `W16` stand at
`buf[13 + i]`, `buf[8 + i]`, `buf[2 + i]` and `buf[i]`. -/
def expandWord (buf : List UInt32) (i : Nat) : List UInt32 :=
  buf ++ [rotl (buf.getD (13 + i) 0 ^^^ buf.getD (8 + i) 0 ^^^ buf.getD (2 + i) 0 ^^^ buf.getD i 0) 1]

/-- The eighty words that `SHA1Guts` puts into `buf`. -/
def expandWords (cbuf : List UInt32) : List UInt32 :=
  (List.range 64).foldl expandWord (cbuf.map byteswap)

/-- The eighty rounds of `SHA1Guts` over the words `buf`. -/
def sha1Rounds (buf : List UInt32) (v : Working) : Working :=
  let v := (buf.take 20).foldl (doRound f_0_19 k_0_19) v
  let v := ((buf.drop 20).take 20).foldl (doRound f_20_39 k_20_39) v
  let v := ((buf.drop 40).take 20).foldl (doRound f_40_59 k_40_59) v
  ((buf.drop 60).take 20).foldl (doRound f_60_79 k_60_79) v

/-- The additions at the end of `SHA1Guts`. -/
def addWorking (hash : Vector UInt32 5) (v : Working) : Vector UInt32 5 :=
  #v[hash[0] + v.a, hash[1] + v.b, hash[2] + v.c, hash[3] + v.d, hash[4] + v.e]

/-- `SHA1Guts` -/
def sha1Guts (sc : SHA1Context) (cbuf : List UInt32) : SHA1Context :=
  { sc with hash := addWorking sc.hash (sha1Rounds (expandWords cbuf) (.ofHash sc.hash)) }

/-- The end of the body of the loop: a full buffer is hashed. -/
def sha1Flush (sc : SHA1Context) : SHA1Context :=
  if sc.bufferLength = 64 then { sha1Guts sc sc.buffer.words with bufferLength := 0 } else sc

/-- The loop of `SHA1Update`, for at most `fuel` rounds. -/
def sha1UpdateLoop : Nat → SHA1Context → List UInt8 → UInt32 → Option SHA1Context
  | 0, sc, _, len => if len = 0 then some sc else none
  | fuel + 1, sc, data, len =>
      if len = 0 then some sc
      else do
        let bufferBytesLeft := 64 - sc.bufferLength
        let bytesToCopy := if len < bufferBytesLeft then len else bufferBytesLeft
        let src ← Bytes.slice data 0 bytesToCopy.toNat
        let buffer ← sc.buffer.memcpy sc.bufferLength.toNat src
        let sc := sha1Flush {
          sc with
          buffer
          totalLength := sc.totalLength + bytesToCopy.toUInt64 * 8
          bufferLength := sc.bufferLength + bytesToCopy }
        sha1UpdateLoop fuel sc (data.drop bytesToCopy.toNat) (len - bytesToCopy)

/-- `SHA1Update`.  A loop that ends copies at least one byte in each round. -/
def sha1Update (sc : SHA1Context) (data : List UInt8) (len : UInt32) : Option SHA1Context :=
  sha1UpdateLoop len.toNat sc data len

/-- The table `padding`. -/
def padding : List UInt8 := 0x80 :: List.replicate 63 0

/-- The four bytes that `SHA1Final` stores for a word. -/
def storeWord (w : UInt32) : List UInt8 :=
  [(w >>> 24).toUInt8, (w >>> 16).toUInt8, (w >>> 8).toUInt8, w.toUInt8]

/-- `SHA1Final`: the context it leaves and the bytes of `hash`. -/
def sha1Final (sc : SHA1Context) : Option (SHA1Context × List UInt8) := do
  let bytesToPad := 120 - sc.bufferLength
  let bytesToPad := if 64 < bytesToPad then bytesToPad - 64 else bytesToPad
  let lengthPad := byteswap64 sc.totalLength
  let sc ← sha1Update sc padding bytesToPad
  let sc ← sha1Update sc (Endian.bytes .little 8 lengthPad.toNat) 8
  return (sc, sc.hash.toList.flatMap storeWord)

/-- `shahash` of `chunk.c`; `sha` is what the stack holds where the context is put. -/
def shahash (sha : SHA1Context) (str : List UInt8) (len : UInt32) : Option (List UInt8) := do
  let sha ← sha1Update (sha1Init sha) str len
  let (_, hash) ← sha1Final sha
  return hash

end BitTorrent
