import BitTorrent.Packet
import BitTorrent.Sha.Standard

/-!
# Hashing in pieces

`SHA1Context.Absorbed sc m` says that the calls so far have given `sc` the bytes
`m`.  Each call of `sha1Update` extends `m`, never leaves the buffer and always
comes back, and `sha1Final` after any of them gives the hash that the standard
defines for all the bytes together.  The length of the message is counted
modulo `2 ^ 64` bits, as the eight bytes of the padding have it.

The functions with `Calls` in their names are those of the code once more, with
the calls of `SHA1Guts` written down: `map_sha1UpdateLoopCalls` and its
companions say that nothing else is different.  What they write down are the
calls that the standard makes for the padded message.
-/

namespace BitTorrent

open BlockHash (Absorbing absorb absorbCalls blocks)

namespace Sha1

/-- The hash before the first byte. -/
def start : Absorbing (Vector UInt32 5) UInt8 := ⟨initial, []⟩

/-- The number of zero bytes in the padding of a message of `n` bytes. -/
def zeros (n : Nat) : Nat := (119 - n % 64) % 64

/-- What is appended to a message of `n` bytes. -/
def padTail (n : Nat) : List UInt8 :=
  0x80 :: List.replicate (zeros n) 0 ++ Endian.bytes .big 8 (8 * n)

/-- The padded message. -/
def pad (m : List UInt8) : List UInt8 := m ++ padTail m.length

/-- The blocks of the padded message. -/
def padBlocks (m : List UInt8) : List (List UInt8) := blocks 64 ((pad m).length / 64) (pad m)

/-- The bytes of a hash value. -/
def digest (h : Vector UInt32 5) : List UInt8 :=
  h.toList.flatMap fun w ↦ Endian.bytes .big 4 w.toNat

/-- The hash of a message. -/
def hash (m : List UInt8) : List UInt8 := digest ((padBlocks m).foldl compress initial)

theorem length_hash (m : List UInt8) : (hash m).length = sha1HashSize := by
  rw [hash, digest, List.length_flatMap]
  simp only [Endian.length_bytes, List.map_const', List.sum_replicate_nat, Vector.length_toList]
  rfl

@[simp] theorem length_padTail (n : Nat) : (padTail n).length = zeros n + 9 := by
  rw [padTail, List.length_append, List.length_cons, List.length_replicate, Endian.length_bytes]

theorem length_pad_mod (m : List UInt8) : (pad m).length % 64 = 0 := by
  rw [pad, List.length_append, length_padTail, zeros]
  omega

theorem length_pad (m : List UInt8) : (pad m).length = (pad m).length / 64 * 64 :=
  (Nat.div_mul_cancel (Nat.dvd_of_mod_eq_zero (length_pad_mod m))).symm

theorem length_of_mem_padBlocks {m b : List UInt8} (hb : b ∈ padBlocks m) : b.length = 64 :=
  BlockHash.length_of_mem_blocks (length_pad m) hb

theorem flatten_padBlocks (m : List UInt8) : (padBlocks m).flatten = pad m :=
  BlockHash.flatten_blocks (length_pad m)

/-- The hash is what absorbing the padded message leaves. -/
theorem absorb_pad (m : List UInt8) :
    absorb compress 64 start (pad m) = ⟨(padBlocks m).foldl compress initial, []⟩ := by
  rw [← flatten_padBlocks]
  exact BlockHash.absorb_flatten (by decide) (fun b hb ↦ length_of_mem_padBlocks hb) initial

/-- The hash values and blocks that are compressed for a message. -/
def calls (m : List UInt8) : List (Vector UInt32 5 × List UInt8) :=
  BlockHash.calls compress initial (padBlocks m)

/-- They are those made while the padded message is taken in. -/
theorem absorbCalls_pad (m : List UInt8) : absorbCalls compress 64 start (pad m) = calls m := by
  rw [← flatten_padBlocks]
  exact BlockHash.absorbCalls_flatten (by decide) (fun b hb ↦ length_of_mem_padBlocks hb) initial

end Sha1

/-! ## The calls of `SHA1Guts` -/

/-- The hash value and the block that `SHA1Guts` is called with. -/
def SHA1Context.call (sc : SHA1Context) : Vector UInt32 5 × List UInt8 := (sc.hash, sc.buffer.bytes)

/-- What `sha1Flush` calls. -/
def sha1FlushCalls (sc : SHA1Context) : List (Vector UInt32 5 × List UInt8) :=
  if sc.bufferLength = 64 then [sc.call] else []

/-- `sha1UpdateLoop` and its calls. -/
def sha1UpdateLoopCalls :
    Nat → SHA1Context → List UInt8 → UInt32 →
      Option (SHA1Context × List (Vector UInt32 5 × List UInt8))
  | 0, sc, _, len => if len = 0 then some (sc, []) else none
  | fuel + 1, sc, data, len =>
      if len = 0 then some (sc, [])
      else do
        let bufferBytesLeft := 64 - sc.bufferLength
        let bytesToCopy := if len < bufferBytesLeft then len else bufferBytesLeft
        let src ← Bytes.slice data 0 bytesToCopy.toNat
        let buffer ← sc.buffer.memcpy sc.bufferLength.toNat src
        let sc : SHA1Context := {
          sc with
          buffer
          totalLength := sc.totalLength + bytesToCopy.toUInt64 * 8
          bufferLength := sc.bufferLength + bytesToCopy }
        let (sc', calls) ← sha1UpdateLoopCalls fuel (sha1Flush sc) (data.drop bytesToCopy.toNat)
          (len - bytesToCopy)
        return (sc', sha1FlushCalls sc ++ calls)

/-- `sha1Update` and its calls. -/
def sha1UpdateCalls (sc : SHA1Context) (data : List UInt8) (len : UInt32) :
    Option (SHA1Context × List (Vector UInt32 5 × List UInt8)) :=
  sha1UpdateLoopCalls len.toNat sc data len

/-- `sha1Final` and its calls. -/
def sha1FinalCalls (sc : SHA1Context) :
    Option ((SHA1Context × List UInt8) × List (Vector UInt32 5 × List UInt8)) := do
  let bytesToPad := 120 - sc.bufferLength
  let bytesToPad := if 64 < bytesToPad then bytesToPad - 64 else bytesToPad
  let lengthPad := byteswap64 sc.totalLength
  let (sc, calls) ← sha1UpdateCalls sc padding bytesToPad
  let (sc, calls') ← sha1UpdateCalls sc (Endian.bytes .little 8 lengthPad.toNat) 8
  return ((sc, sc.hash.toList.flatMap storeWord), calls ++ calls')

/-- `shahash` and its calls. -/
def shahashCalls (sha : SHA1Context) (str : List UInt8) (len : UInt32) :
    Option (List UInt8 × List (Vector UInt32 5 × List UInt8)) := do
  let (sha, calls) ← sha1UpdateCalls (sha1Init sha) str len
  let ((_, hash), calls') ← sha1FinalCalls sha
  return (hash, calls ++ calls')

theorem map_sha1UpdateLoopCalls (fuel : Nat) (sc : SHA1Context) (data : List UInt8) (len : UInt32) :
    (sha1UpdateLoopCalls fuel sc data len).map Prod.fst = sha1UpdateLoop fuel sc data len := by
  induction fuel generalizing sc data len with
  | zero =>
      rw [sha1UpdateLoopCalls, sha1UpdateLoop]
      split <;> rfl
  | succ fuel ih =>
      rw [sha1UpdateLoopCalls, sha1UpdateLoop]
      split
      · rfl
      · simp only [← ih, Option.bind_eq_bind, Option.pure_def, Function.comp_def,
          Option.map_eq_bind, Option.bind_assoc, Option.bind_some]

theorem map_sha1UpdateCalls (sc : SHA1Context) (data : List UInt8) (len : UInt32) :
    (sha1UpdateCalls sc data len).map Prod.fst = sha1Update sc data len :=
  map_sha1UpdateLoopCalls _ sc data len

theorem map_sha1FinalCalls (sc : SHA1Context) :
    (sha1FinalCalls sc).map Prod.fst = sha1Final sc := by
  rw [sha1FinalCalls, sha1Final]
  simp only [← map_sha1UpdateCalls, Option.bind_eq_bind, Option.pure_def, Function.comp_def,
    Option.map_eq_bind, Option.bind_assoc, Option.bind_some]

/-- Nothing but the calls is new. -/
theorem map_shahashCalls (sha : SHA1Context) (str : List UInt8) (len : UInt32) :
    (shahashCalls sha str len).map Prod.fst = shahash sha str len := by
  rw [shahashCalls, shahash]
  simp only [← map_sha1UpdateCalls, ← map_sha1FinalCalls, Option.bind_eq_bind, Option.pure_def,
    Function.comp_def, Option.map_eq_bind, Option.bind_assoc, Option.bind_some]

/-! ## One call -/

/-- The context after the bytes `m`. -/
structure SHA1Context.Absorbed (sc : SHA1Context) (m : List UInt8) : Prop where
  hash : sc.hash = (absorb Sha1.compress 64 Sha1.start m).state
  pending : sc.buffer.bytes.take sc.bufferLength.toNat = (absorb Sha1.compress 64 Sha1.start m).pending
  lt : sc.bufferLength.toNat < 64
  total : sc.totalLength = UInt64.ofNat (8 * m.length)

variable {sc : SHA1Context} {m src data : List UInt8} {n len : UInt32}

theorem absorbed_sha1Init (sc : SHA1Context) : (sha1Init sc).Absorbed [] where
  hash := rfl
  pending := List.take_zero
  lt := Nat.zero_lt_succ 63
  total := rfl

/-- A buffer with some new bytes in it, which is hashed when they fill it: the standard
makes the same call. -/
theorem absorbed_sha1Flush (hne : src ≠ [])
    (hhash : sc.hash = (absorb Sha1.compress 64 Sha1.start m).state)
    (hpending : sc.buffer.bytes.take sc.bufferLength.toNat =
      (absorb Sha1.compress 64 Sha1.start m).pending ++ src)
    (hle : sc.bufferLength.toNat ≤ 64)
    (htotal : sc.totalLength = UInt64.ofNat (8 * (m ++ src).length)) :
    (sha1Flush sc).Absorbed (m ++ src) ∧
      sha1FlushCalls sc =
        absorbCalls Sha1.compress 64 (absorb Sha1.compress 64 Sha1.start m) src := by
  have hlen : (absorb Sha1.compress 64 Sha1.start m).pending.length + src.length =
      sc.bufferLength.toNat := by
    rw [← List.length_append, ← hpending, List.length_take, sc.buffer.size_eq, Nat.min_eq_left hle]
  rw [sha1Flush, sha1FlushCalls]
  split
  · next hfull =>
    have h64 : sc.bufferLength.toNat = 64 := congrArg UInt32.toNat hfull
    have hstep : absorb Sha1.compress 64 (absorb Sha1.compress 64 Sha1.start m) src = _ :=
      BlockHash.absorb_of_eq hne (hlen.trans h64)
    have hbytes : sc.buffer.bytes = (absorb Sha1.compress 64 Sha1.start m).pending ++ src := by
      rw [← hpending, h64, List.take_of_length_le (Nat.le_of_eq sc.buffer.size_eq)]
    have hguts := hash_sha1Guts sc
    rw [hhash, hbytes] at hguts
    refine ⟨⟨?_, ?_, Nat.zero_lt_succ 63, htotal⟩, ?_⟩
    · rw [BlockHash.absorb_append, hstep]
      exact hguts
    · rw [BlockHash.absorb_append, hstep]
      exact List.take_zero
    · rw [BlockHash.absorbCalls_of_eq hne (hlen.trans h64), SHA1Context.call, hhash, hbytes]
  · next hfull =>
    have hlt : sc.bufferLength.toNat < 64 :=
      Nat.lt_of_le_of_ne hle fun heq ↦ hfull (UInt32.toNat_inj.mp heq)
    have hstep : absorb Sha1.compress 64 (absorb Sha1.compress 64 Sha1.start m) src = _ :=
      BlockHash.absorb_of_lt (hlen.trans_lt hlt)
    refine ⟨⟨?_, ?_, hlt, htotal⟩, ?_⟩
    · rw [BlockHash.absorb_append, hstep]
      exact hhash
    · rw [BlockHash.absorb_append, hstep]
      exact hpending
    · rw [BlockHash.absorbCalls_of_lt (hlen.trans_lt hlt)]

namespace SHA1Context.Absorbed

theorem bufferLength_eq (h : sc.Absorbed m) : sc.bufferLength.toNat = m.length % 64 := by
  have hlen : (absorb Sha1.compress 64 Sha1.start m).pending.length = _ :=
    BlockHash.length_pending_absorb (Nat.zero_lt_succ 63)
  rw [← h.pending, List.length_take, sc.buffer.size_eq, Nat.min_eq_left (Nat.le_of_lt h.lt)] at hlen
  rw [hlen, Sha1.start, List.length_nil, Nat.zero_add]

/-- One round of the loop: some bytes that fit are copied, and a full buffer is hashed. -/
theorem copy (h : sc.Absorbed m) (hne : src ≠ []) (hn : n.toNat = src.length)
    (hfit : sc.bufferLength.toNat + src.length ≤ 64) :
    ∃ buffer, sc.buffer.memcpy sc.bufferLength.toNat src = some buffer ∧
      ∀ sc' : SHA1Context, sc' = {
        sc with
        buffer
        totalLength := sc.totalLength + n.toUInt64 * 8
        bufferLength := sc.bufferLength + n } →
      (sha1Flush sc').Absorbed (m ++ src) ∧
        sha1FlushCalls sc' =
          absorbCalls Sha1.compress 64 (absorb Sha1.compress 64 Sha1.start m) src := by
  have hoff : (sc.buffer.bytes.take sc.bufferLength.toNat).length = sc.bufferLength.toNat :=
    List.length_take_of_le (by rw [sc.buffer.size_eq]; exact Nat.le_of_lt h.lt)
  have hnew : (sc.bufferLength + n).toNat = sc.bufferLength.toNat + src.length := by
    rw [UInt32.toNat_add, hn]
    omega
  refine ⟨_, dif_pos hfit, ?_⟩
  rintro _ rfl
  refine absorbed_sha1Flush hne h.hash ?_ (hnew.trans_le hfit) ?_
  · rw [← h.pending]
    exact List.take_left' (by rw [List.length_append, hoff, hnew])
  · have h8 : (8 : UInt64).toNat = 8 := rfl
    apply UInt64.toNat_inj.mp
    rw [h.total, List.length_append, UInt64.toNat_add, UInt64.toNat_mul, UInt32.toNat_toUInt64, hn,
      UInt64.toNat_ofNat', UInt64.toNat_ofNat', h8]
    omega

end SHA1Context.Absorbed

/-- `bytesToCopy` is what is left of the input or of the buffer. -/
theorem toNat_bytesToCopy (len : UInt32) {bufferLength : UInt32} (hlt : bufferLength.toNat < 64) :
    (if len < 64 - bufferLength then len else 64 - bufferLength).toNat =
      min len.toNat (64 - bufferLength.toNat) := by
  have hleft : (64 - bufferLength).toNat = 64 - bufferLength.toNat :=
    UInt32.toNat_sub_of_le _ _ (UInt32.le_iff_toNat_le.mpr (Nat.le_of_lt hlt))
  split
  · next h =>
    rw [UInt32.lt_iff_toNat_lt, hleft] at h
    exact (Nat.min_eq_left (Nat.le_of_lt h)).symm
  · next h =>
    rw [UInt32.lt_iff_toNat_lt, hleft, Nat.not_lt] at h
    rw [hleft, Nat.min_eq_right h]

/-- The loop comes back with all the bytes taken in, and has made the standard's calls. -/
theorem sha1UpdateLoopCalls_eq {fuel : Nat} (h : sc.Absorbed m) (hlen : len.toNat ≤ data.length)
    (hfuel : len.toNat ≤ fuel) :
    ∃ sc', sha1UpdateLoopCalls fuel sc data len =
        some (sc', absorbCalls Sha1.compress 64 (absorb Sha1.compress 64 Sha1.start m)
          (data.take len.toNat)) ∧
      sc'.Absorbed (m ++ data.take len.toNat) := by
  induction fuel generalizing sc m data len with
  | zero =>
      have hzero : len.toNat = 0 := Nat.le_zero.mp hfuel
      have hlen0 : len = 0 := UInt32.toNat_inj.mp hzero
      rw [hzero, List.take_zero, List.append_nil]
      exact ⟨sc, if_pos hlen0, h⟩
  | succ fuel ih =>
      by_cases hlen0 : len = 0
      · have hzero : len.toNat = 0 := congrArg UInt32.toNat hlen0
        rw [hzero, List.take_zero, List.append_nil]
        exact ⟨sc, if_pos hlen0, h⟩
      · have hpos : 0 < len.toNat :=
          Nat.pos_of_ne_zero fun hzero ↦ hlen0 (UInt32.toNat_inj.mp hzero)
        have hlt := h.lt
        have hnat := toNat_bytesToCopy len hlt
        generalize hn : (if len < 64 - sc.bufferLength then len else 64 - sc.bufferLength) = n at hnat
        have hsrc : (data.take n.toNat).length = n.toNat := List.length_take_of_le (by omega)
        have hne : data.take n.toNat ≠ [] := by
          intro hnil
          rw [hnil, List.length_nil] at hsrc
          omega
        obtain ⟨buffer, hcopy, hflush⟩ := h.copy hne hsrc.symm (by omega)
        obtain ⟨habs, hcall⟩ := hflush _ rfl
        have hrest : (len - n).toNat = len.toNat - n.toNat :=
          UInt32.toNat_sub_of_le _ _ (UInt32.le_iff_toNat_le.mpr (by omega))
        have hleft : (len - n).toNat ≤ (data.drop n.toNat).length := by
          rw [hrest, List.length_drop]
          omega
        obtain ⟨sc', hrun, habs'⟩ := ih habs hleft (by omega)
        have hall : data.take n.toNat ++ (data.drop n.toNat).take (len - n).toNat =
            data.take len.toNat := by
          rw [hrest, ← List.take_add]
          congr 1
          omega
        rw [List.append_assoc, hall] at habs'
        refine ⟨sc', ?_, habs'⟩
        have hslice : Bytes.slice data 0 n.toNat = some (data.take n.toNat) :=
          Bytes.slice_of_le (by omega)
        -- the call of this round comes before those of the rounds that follow
        rw [← hall, BlockHash.absorbCalls_append, ← BlockHash.absorb_append, sha1UpdateLoopCalls,
          if_neg hlen0]
        simp only [hn, hslice, Option.bind_eq_bind, Option.bind_some, hcopy, hrun, hcall]
        rfl

theorem sha1UpdateCalls_eq (h : sc.Absorbed m) (hlen : len.toNat ≤ data.length) :
    ∃ sc', sha1UpdateCalls sc data len =
        some (sc', absorbCalls Sha1.compress 64 (absorb Sha1.compress 64 Sha1.start m)
          (data.take len.toNat)) ∧
      sc'.Absorbed (m ++ data.take len.toNat) :=
  sha1UpdateLoopCalls_eq h hlen (Nat.le_refl _)

/-- `SHA1Update` takes in the first `len` bytes it is given. -/
theorem sha1Update_eq (h : sc.Absorbed m) (hlen : len.toNat ≤ data.length) :
    ∃ sc', sha1Update sc data len = some sc' ∧ sc'.Absorbed (m ++ data.take len.toNat) := by
  obtain ⟨sc', hrun, habs⟩ := sha1UpdateCalls_eq h hlen
  refine ⟨sc', ?_, habs⟩
  rw [← map_sha1UpdateCalls, hrun]
  rfl

/-- Calls of `SHA1Update`, one for each pointer and length. -/
def sha1Updates (sc : SHA1Context) (calls : List (List UInt8 × UInt32)) : Option SHA1Context :=
  calls.foldlM (fun sc call ↦ sha1Update sc call.1 call.2) sc

/-- The bytes that calls are given. -/
def callBytes (calls : List (List UInt8 × UInt32)) : List UInt8 :=
  calls.flatMap fun call ↦ call.1.take call.2.toNat

theorem sha1Updates_eq {calls : List (List UInt8 × UInt32)} (h : sc.Absorbed m)
    (hcalls : ∀ call ∈ calls, call.2.toNat ≤ call.1.length) :
    ∃ sc', sha1Updates sc calls = some sc' ∧ sc'.Absorbed (m ++ callBytes calls) := by
  induction calls generalizing sc m with
  | nil => exact ⟨sc, rfl, (List.append_nil m).symm ▸ h⟩
  | cons call calls ih =>
      obtain ⟨hcall, hcalls⟩ := List.forall_mem_cons.mp hcalls
      obtain ⟨sc₁, hone, habs₁⟩ := sha1Update_eq h hcall
      obtain ⟨sc₂, hrest, habs₂⟩ := ih habs₁ hcalls
      rw [List.append_assoc] at habs₂
      refine ⟨sc₂, ?_, habs₂⟩
      rw [sha1Updates, List.foldlM_cons, hone]
      exact hrest

/-! ## The padding -/

/-- The bytes of `lengthPad` in memory. -/
theorem bytes_byteswap64 (x : UInt64) :
    Endian.bytes .little 8 (byteswap64 x).toNat = Endian.bytes .big 8 x.toNat := by
  have hhigh : (x >>> 32).toUInt32.toNat = x.toNat / 2 ^ 32 := by
    have hx := x.toNat_lt
    rw [UInt64.toNat_toUInt32, UInt64.toNat_shiftRight]
    change x.toNat >>> 32 % 2 ^ 32 = _
    rw [Nat.shiftRight_eq_div_pow]
    omega
  have hlow : x.toUInt32.toNat = x.toNat % 2 ^ 32 := UInt64.toNat_toUInt32 x
  have hswap : (byteswap64 x).toNat = (byteswap (x >>> 32).toUInt32).toNat +
      256 ^ 4 * (byteswap x.toUInt32).toNat := by
    have ha := (byteswap (x >>> 32).toUInt32).toNat_lt
    have hb := (byteswap x.toUInt32).toNat_lt
    rw [byteswap64, UInt64.toNat_or, UInt64.toNat_shiftLeft, UInt32.toNat_toUInt64,
      UInt32.toNat_toUInt64]
    change (byteswap x.toUInt32).toNat <<< 32 % 2 ^ 64 ||| _ = _
    rw [Nat.mod_eq_of_lt (by rw [Nat.shiftLeft_eq]; omega), ← Nat.shiftLeft_add_eq_or_of_lt ha,
      Nat.shiftLeft_eq]
    omega
  have hparts : x.toNat = x.toUInt32.toNat + 256 ^ 4 * (x >>> 32).toUInt32.toNat := by
    rw [hhigh, hlow]
    omega
  calc Endian.bytes .little 8 (byteswap64 x).toNat
      = Endian.bytes .little 4 (byteswap (x >>> 32).toUInt32).toNat ++
          Endian.bytes .little 4 (byteswap x.toUInt32).toNat := by
        rw [hswap]
        exact Endian.bytesLE_add 4 4 _ (byteswap (x >>> 32).toUInt32).toNat_lt
    _ = Endian.bytes .big 4 (x >>> 32).toUInt32.toNat ++ Endian.bytes .big 4 x.toUInt32.toNat := by
        rw [bytes_byteswap, bytes_byteswap]
    _ = Endian.bytes .big 8 x.toNat := by
        conv_rhs => rw [hparts]
        rw [Endian.bytes, Endian.bytes, Endian.bytes, ← List.reverse_append]
        exact congrArg List.reverse (Endian.bytesLE_add 4 4 _ x.toUInt32.toNat_lt).symm

/-- `bytesToPad` counts the `0x80` and the zeros. -/
theorem toNat_bytesToPad {bufferLength : UInt32} {k : Nat} (hlen : bufferLength.toNat = k % 64) :
    (if 64 < 120 - bufferLength then 120 - bufferLength - 64 else 120 - bufferLength).toNat =
      Sha1.zeros k + 1 := by
  have hlt : k % 64 < 64 := Nat.mod_lt _ (by decide)
  have hle : bufferLength.toNat ≤ 120 := by omega
  have h120 : (120 - bufferLength).toNat = 120 - bufferLength.toNat :=
    UInt32.toNat_sub_of_le _ _ (UInt32.le_iff_toNat_le.mpr hle)
  have hcond : 64 < 120 - bufferLength ↔ 64 < 120 - bufferLength.toNat := by
    rw [UInt32.lt_iff_toNat_lt, h120]
    exact Iff.rfl
  rw [Sha1.zeros, ← hlen]
  split
  · next h =>
    have h64 : (120 - bufferLength - 64).toNat = (120 - bufferLength).toNat - 64 :=
      UInt32.toNat_sub_of_le _ _ (UInt32.le_of_lt h)
    rw [hcond] at h
    omega
  · next h =>
    rw [hcond] at h
    omega

/-- `SHA1Final` stores the hash of all the bytes, and calls `SHA1Guts` for the padding. -/
theorem sha1FinalCalls_eq (h : sc.Absorbed m) :
    ∃ sc', sha1FinalCalls sc = some ((sc', Sha1.hash m),
      absorbCalls Sha1.compress 64 (absorb Sha1.compress 64 Sha1.start m)
        (Sha1.padTail m.length)) := by
  have hnat := toNat_bytesToPad h.bufferLength_eq
  generalize hn : (if 64 < 120 - sc.bufferLength then 120 - sc.bufferLength - 64
    else 120 - sc.bufferLength) = n at hnat
  have hzeros : Sha1.zeros m.length < 64 := Nat.mod_lt _ (by decide)
  have hpad : padding.take n.toNat = 0x80 :: List.replicate (Sha1.zeros m.length) 0 := by
    rw [hnat, padding, List.take_succ_cons, List.take_replicate, Nat.min_eq_left (by omega)]
  have hle : n.toNat ≤ padding.length := by
    rw [hnat, padding, List.length_cons, List.length_replicate]
    omega
  have hle' : (8 : UInt32).toNat ≤
      (Endian.bytes .little 8 (byteswap64 sc.totalLength).toNat).length := by
    rw [Endian.length_bytes]
    exact Nat.le_refl 8
  obtain ⟨sc₁, hrun₁, habs₁⟩ := sha1UpdateCalls_eq h hle
  obtain ⟨sc₂, hrun₂, habs₂⟩ := sha1UpdateCalls_eq habs₁ hle'
  have hbits : Endian.bytes .little 8 (byteswap64 sc.totalLength).toNat =
      Endian.bytes .big 8 (8 * m.length) := by
    rw [bytes_byteswap64, h.total, UInt64.toNat_ofNat']
    exact congrArg List.reverse (Endian.bytesLE_mod 8 _)
  have htail : (Endian.bytes .big 8 (8 * m.length)).take (8 : UInt32).toNat =
      Endian.bytes .big 8 (8 * m.length) :=
    List.take_of_length_le (Nat.le_of_eq (Endian.length_bytes ..))
  rw [hpad] at habs₂ hrun₂ hrun₁
  rw [hbits, htail, List.append_assoc] at habs₂
  rw [hbits, htail, BlockHash.absorb_append] at hrun₂
  have hhash : sc₂.hash = (Sha1.padBlocks m).foldl Sha1.compress Sha1.initial :=
    habs₂.hash.trans (congrArg Absorbing.state (Sha1.absorb_pad m))
  refine ⟨sc₂, ?_⟩
  rw [Sha1.padTail, BlockHash.absorbCalls_append]
  simp only [sha1FinalCalls, hn, hbits, hrun₁, hrun₂, Option.bind_eq_bind, Option.bind_some,
    Sha1.hash, Sha1.digest, hhash, funext storeWord_eq]
  rfl

theorem sha1Final_eq (h : sc.Absorbed m) : ∃ sc', sha1Final sc = some (sc', Sha1.hash m) := by
  obtain ⟨sc', hrun⟩ := sha1FinalCalls_eq h
  refine ⟨sc', ?_⟩
  rw [← map_sha1FinalCalls, hrun]
  rfl

/-- `shahash` gives the standard's hash, and calls `SHA1Guts` as the standard does. -/
theorem shahashCalls_eq (sha : SHA1Context) {str : List UInt8} {len : UInt32}
    (hlen : len.toNat ≤ str.length) :
    shahashCalls sha str len =
      some (Sha1.hash (str.take len.toNat), Sha1.calls (str.take len.toNat)) := by
  obtain ⟨sc₁, hrun, habs⟩ := sha1UpdateCalls_eq (absorbed_sha1Init sha) hlen
  obtain ⟨sc₂, hfinal⟩ := sha1FinalCalls_eq habs
  rw [List.nil_append] at hfinal
  rw [← Sha1.absorbCalls_pad, Sha1.pad, BlockHash.absorbCalls_append]
  simp only [shahashCalls, hrun, Option.bind_eq_bind, Option.bind_some, hfinal]
  rfl

theorem shahash_eq (sha : SHA1Context) {str : List UInt8} {len : UInt32}
    (hlen : len.toNat ≤ str.length) :
    shahash sha str len = some (Sha1.hash (str.take len.toNat)) := by
  rw [← map_shahashCalls, shahashCalls_eq sha hlen]
  rfl

/-- Whatever the pieces, no call leaves the buffer, each comes back, and the bytes that
`SHA1Final` stores are the standard's hash of all the bytes given. -/
theorem sha1Final_sha1Updates (sc : SHA1Context) {calls : List (List UInt8 × UInt32)}
    (hcalls : ∀ call ∈ calls, call.2.toNat ≤ call.1.length) :
    ((sha1Updates (sha1Init sc) calls).bind sha1Final).map Prod.snd =
      some (Sha1.hash (callBytes calls)) := by
  obtain ⟨sc₁, hrun, habs⟩ := sha1Updates_eq (absorbed_sha1Init sc) hcalls
  obtain ⟨sc₂, hfinal⟩ := sha1Final_eq habs
  rw [hrun, Option.bind_some, hfinal]
  rfl

/-- A context of zeros. -/
def zeroContext : SHA1Context := ⟨0, .replicate 5 0, 0, ⟨List.replicate 64 0, by decide⟩⟩

/-- The standard's first example, in two pieces. -/
theorem sha1Final_sha1Updates_abc :
    ((sha1Updates (sha1Init zeroContext) [([97, 98], 2), ([99, 100], 1)]).bind sha1Final).map
      Prod.snd = some (Sha1.hash [97, 98, 99]) :=
  sha1Final_sha1Updates zeroContext (by decide)

end BitTorrent
