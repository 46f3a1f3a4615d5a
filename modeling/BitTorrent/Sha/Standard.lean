import Mathlib.Tactic.IntervalCases
import BitTorrent.Library.BlockHash
import BitTorrent.Sha

/-!
# The block function of the standard

SHA-1 as the Secure Hash Standard states it: the words of a block are read with
their most significant byte first, the message schedule is a recurrence, and
the function and constant of a round depend on its number.  `sha1Guts` writes
two of the functions differently, swaps the bytes of words it loads in the
order of the host, and runs the schedule and the rounds through pointers into
one array; the last theorem is that it computes the same.
-/

namespace BitTorrent

namespace Sha1

/-- The left rotation of a word. -/
def rotate (n : Nat) (x : UInt32) : UInt32 := ⟨x.toBitVec.rotateLeft n⟩

/-- `Ch` -/
def ch (x y z : UInt32) : UInt32 := (x &&& y) ^^^ (~~~x &&& z)

/-- `Parity` -/
def parity (x y z : UInt32) : UInt32 := x ^^^ y ^^^ z

/-- `Maj` -/
def maj (x y z : UInt32) : UInt32 := (x &&& y) ^^^ (x &&& z) ^^^ (y &&& z)

/-- The function of round `t`. -/
def roundFn (t : Nat) : UInt32 → UInt32 → UInt32 → UInt32 :=
  if t < 20 then ch else if t < 40 then parity else if t < 60 then maj else parity

/-- The constant of round `t`. -/
def roundConst (t : Nat) : UInt32 :=
  if t < 20 then 0x5a827999 else if t < 40 then 0x6ed9eba1 else if t < 60 then 0x8f1bbcdc
  else 0xca62c1d6

/-- The `t`-th word of a block, most significant byte first. -/
def blockWord (block : List UInt8) (t : Nat) : UInt32 :=
  UInt32.ofNat (Endian.ofBytes .big ((block.drop (4 * t)).take 4))

/-- The message schedule. -/
def schedule (block : List UInt8) (t : Nat) : UInt32 :=
  if t < 16 then blockWord block t
  else rotate 1 (schedule block (t - 3) ^^^ schedule block (t - 8) ^^^ schedule block (t - 14) ^^^
    schedule block (t - 16))
termination_by t

/-- Round `t` on the five working variables. -/
def round (block : List UInt8) (v : Working) (t : Nat) : Working where
  a := rotate 5 v.a + roundFn t v.b v.c v.d + v.e + roundConst t + schedule block t
  b := v.a
  c := rotate 30 v.b
  d := v.c
  e := v.d

/-- The working variables added to the hash value. -/
def addHash (v : Working) (h : Vector UInt32 5) : Vector UInt32 5 :=
  let w := Working.ofHash h
  Working.toHash ⟨v.a + w.a, v.b + w.b, v.c + w.c, v.d + w.d, v.e + w.e⟩

/-- The hash value after one more block. -/
def compress (h : Vector UInt32 5) (block : List UInt8) : Vector UInt32 5 :=
  addHash ((List.range 80).foldl (round block) (.ofHash h)) h

/-- The initial hash value. -/
def initial : Vector UInt32 5 :=
  Working.toHash ⟨0x67452301, 0xefcdab89, 0x98badcfe, 0x10325476, 0xc3d2e1f0⟩

end Sha1

/-! ## The macros -/

theorem f_0_19_eq : f_0_19 = Sha1.ch := by
  funext x y z
  apply UInt32.toBitVec_inj.mp
  ext i hi
  simp only [f_0_19, Sha1.ch, UInt32.toBitVec_xor, UInt32.toBitVec_and, UInt32.toBitVec_not,
    BitVec.getElem_xor, BitVec.getElem_and, BitVec.getElem_not]
  cases x.toBitVec[i] <;> cases y.toBitVec[i] <;> cases z.toBitVec[i] <;> rfl

theorem f_40_59_eq : f_40_59 = Sha1.maj := by
  funext x y z
  apply UInt32.toBitVec_inj.mp
  ext i hi
  simp only [f_40_59, Sha1.maj, UInt32.toBitVec_xor, UInt32.toBitVec_and, UInt32.toBitVec_or,
    BitVec.getElem_xor, BitVec.getElem_and, BitVec.getElem_or]
  cases x.toBitVec[i] <;> cases y.toBitVec[i] <;> cases z.toBitVec[i] <;> rfl

/-- The bit of a word that is put together from four bytes. -/
theorem getLsbD_bytes (a b c d : BitVec 8) (i : Nat) :
    @BitVec.getLsbD 32 (d ++ c ++ b ++ a) i =
      if i < 8 then a.getLsbD i else if i < 16 then b.getLsbD (i - 8)
      else if i < 24 then c.getLsbD (i - 16) else d.getLsbD (i - 24) := by
  change @BitVec.getLsbD (8 + 8 + 8 + 8) (d ++ c ++ b ++ a) i = _
  simp only [BitVec.getLsbD_append, Nat.sub_sub]
  grind

theorem byteswap_append (a b c d : BitVec 8) :
    byteswap ⟨d ++ c ++ b ++ a⟩ = ⟨a ++ b ++ c ++ d⟩ := by
  apply UInt32.toBitVec_inj.mp
  apply BitVec.eq_of_getLsbD_eq
  intro i hi
  simp only [byteswap, rotl, rotr, UInt32.toBitVec_or, UInt32.toBitVec_and,
    UInt32.toBitVec_shiftLeft, UInt32.toBitVec_shiftRight]
  interval_cases i <;> simp [getLsbD_bytes, -BitVec.getLsbD_eq_getElem]

theorem ofBytesLE_append (a b c d : UInt8) :
    UInt32.ofNat (Endian.ofBytesLE [a, b, c, d]) =
      ⟨d.toBitVec ++ c.toBitVec ++ b.toBitVec ++ a.toBitVec⟩ := by
  apply UInt32.toNat_inj.mp
  have ha := a.toNat_lt
  have hb := b.toNat_lt
  have hc := c.toNat_lt
  rw [UInt32.toNat_ofNat']
  simp only [Endian.ofBytesLE, UInt32.toNat, BitVec.toNat_append, UInt8.toNat_toBitVec]
  rw [← Nat.shiftLeft_add_eq_or_of_lt ha, ← Nat.shiftLeft_add_eq_or_of_lt hb,
    ← Nat.shiftLeft_add_eq_or_of_lt hc]
  have hd := d.toNat_lt
  simp only [Nat.shiftLeft_eq]
  omega

/-- A word loaded by a little-endian host has the other order after `BYTESWAP`. -/
theorem byteswap_ofBytes {l : List UInt8} (h : l.length = 4) :
    byteswap (UInt32.ofNat (Endian.ofBytes .little l)) = UInt32.ofNat (Endian.ofBytes .big l) := by
  match l, h with
  | [a, b, c, d], _ =>
      rw [Endian.ofBytes, Endian.ofBytes]
      change _ = UInt32.ofNat (Endian.ofBytesLE [d, c, b, a])
      rw [ofBytesLE_append, byteswap_append, ofBytesLE_append]

theorem bytes_byteswap (w : UInt32) :
    Endian.bytes .little 4 (byteswap w).toNat = Endian.bytes .big 4 w.toNat := by
  have hw : w = UInt32.ofNat (Endian.ofBytes .little (Endian.bytes .little 4 w.toNat)) := by
    rw [Endian.ofBytes_bytes .little w.toNat_lt, UInt32.ofNat_toNat]
  have hlen := Endian.length_bytes .little 4 w.toNat
  have hlt : Endian.ofBytes .big (Endian.bytes .little 4 w.toNat) < 2 ^ 32 :=
    Endian.ofBytes_lt .big hlen
  calc Endian.bytes .little 4 (byteswap w).toNat
      = Endian.bytes .little 4 (Endian.ofBytes .big (Endian.bytes .little 4 w.toNat)) := by
        conv_lhs => rw [hw, byteswap_ofBytes hlen]
        rw [UInt32.toNat_ofNat', Nat.mod_eq_of_lt hlt]
    _ = (Endian.bytes .little 4 w.toNat).reverse :=
        Endian.bytes_ofBytes .little (by rw [List.length_reverse, hlen])
    _ = Endian.bytes .big 4 w.toNat := rfl

theorem storeWord_eq (w : UInt32) : storeWord w = Endian.bytes .big 4 w.toNat := by
  have key (n : Nat) (hn : n < 32) :
      (w >>> UInt32.ofNat n).toUInt8 = UInt8.ofNat (w.toNat / 2 ^ n) := by
    apply UInt8.toNat_inj.mp
    have hmod : n % 2 ^ 32 % 32 = n := by omega
    rw [UInt32.toNat_toUInt8, UInt32.toNat_shiftRight, UInt32.toNat_ofNat', hmod,
      Nat.shiftRight_eq_div_pow, UInt8.toNat_ofNat']
  have h0 : w.toUInt8 = UInt8.ofNat w.toNat := UInt8.toNat_inj.mp (by simp)
  change [(w >>> UInt32.ofNat 24).toUInt8, (w >>> UInt32.ofNat 16).toUInt8,
    (w >>> UInt32.ofNat 8).toUInt8, w.toUInt8] = _
  rw [key 24 (by decide), key 16 (by decide), key 8 (by decide), h0]
  simp only [Endian.bytes, Endian.bytesLE, List.reverse_cons, List.reverse_nil, List.nil_append,
    List.cons_append, Nat.div_div_eq_div_mul]
  rfl

/-! ## The words and the rounds -/

theorem getD_map_range {f : Nat → UInt32} {n i : Nat} (h : i < n) :
    ((List.range n).map f).getD i 0 = f i := by
  rw [List.getD_eq_getElem?_getD, List.getElem?_map, List.getElem?_range h]
  rfl

/-- The second loop of `SHA1Guts` extends the schedule word by word. -/
theorem foldl_expandWord (block : List UInt8) (n : Nat) :
    (List.range n).foldl expandWord ((List.range 16).map (Sha1.schedule block)) =
      (List.range (16 + n)).map (Sha1.schedule block) := by
  induction n with
  | zero => rfl
  | succ n ih =>
      rw [@List.range_succ n, List.foldl_append, ih, List.foldl_cons, List.foldl_nil, expandWord,
        ← Nat.add_assoc, @List.range_succ (16 + n), List.map_append, List.map_singleton,
        getD_map_range (by omega), getD_map_range (by omega), getD_map_range (by omega),
        getD_map_range (by omega)]
      conv_rhs => rw [Sha1.schedule, if_neg (by omega)]
      have h3 : 16 + n - 3 = 13 + n := by omega
      have h8 : 16 + n - 8 = 8 + n := by omega
      have h14 : 16 + n - 14 = 2 + n := by omega
      have h16 : 16 + n - 16 = n := by omega
      rw [h3, h8, h14, h16]
      rfl

theorem expandWords_words (buffer : ShaBuffer) :
    expandWords buffer.words = (List.range 80).map (Sha1.schedule buffer.bytes) := by
  have hfirst : buffer.words.map byteswap = (List.range 16).map (Sha1.schedule buffer.bytes) := by
    rw [ShaBuffer.words, List.map_map]
    refine List.map_congr_left fun t ht ↦ ?_
    have hlt : t < 16 := List.mem_range.mp ht
    have hlen : ((buffer.bytes.drop (4 * t)).take 4).length = 4 := by
      rw [List.length_take, List.length_drop, buffer.size_eq]
      omega
    rw [Function.comp_apply, byteswap_ofBytes hlen, Sha1.schedule, if_pos hlt, Sha1.blockWord]
  rw [expandWords, hfirst, foldl_expandWord]

/-- A group of rounds with one function and one constant, from round `m` on. -/
theorem foldl_doRound {f : UInt32 → UInt32 → UInt32 → UInt32} {k : UInt32} {m : Nat}
    (hm : ((List.range 80).drop m).take 20 = List.range' m 20)
    (h : ∀ t, m ≤ t → t < m + 20 → Sha1.roundFn t = f ∧ Sha1.roundConst t = k)
    (buffer : ShaBuffer) (v : Working) :
    (((expandWords buffer.words).drop m).take 20).foldl (doRound f k) v =
      (List.range' m 20).foldl (Sha1.round buffer.bytes) v := by
  rw [expandWords_words, ← List.map_drop, ← List.map_take, hm, List.foldl_map]
  refine List.foldl_ext _ _ v fun v t ht ↦ ?_
  obtain ⟨hle, hlt⟩ := List.mem_range'_1.mp ht
  obtain ⟨rfl, rfl⟩ := h t hle hlt
  have hsum (x y z : UInt32) : x + y + z = x + z + y := by
    rw [UInt32.add_assoc, UInt32.add_comm y, UInt32.add_assoc]
  exact Working.ext (hsum _ _ _) rfl rfl rfl rfl

/-- The four groups of `SHA1Guts` are the rounds of the standard. -/
theorem sha1Rounds_words (buffer : ShaBuffer) (v : Working) :
    sha1Rounds (expandWords buffer.words) v =
      (List.range 80).foldl (Sha1.round buffer.bytes) v := by
  have h20 (v : Working) : ((expandWords buffer.words).take 20).foldl (doRound f_0_19 k_0_19) v =
      (List.range' 0 20).foldl (Sha1.round buffer.bytes) v := by
    refine foldl_doRound (m := 0) (by decide) (fun t _ ht ↦ ?_) buffer v
    have h20 : t < 20 := by omega
    exact ⟨by rw [Sha1.roundFn, if_pos h20, f_0_19_eq], by rw [Sha1.roundConst, if_pos h20, k_0_19]⟩
  have h40 := foldl_doRound (m := 20) (f := f_20_39) (k := k_20_39) (by decide) (fun t ht ht' ↦ by
    have h20 : ¬t < 20 := by omega
    have h40 : t < 40 := by omega
    refine ⟨?_, by rw [Sha1.roundConst, if_neg h20, if_pos h40, k_20_39]⟩
    rw [Sha1.roundFn, if_neg h20, if_pos h40]
    rfl) buffer
  have h60 := foldl_doRound (m := 40) (f := f_40_59) (k := k_40_59) (by decide) (fun t ht ht' ↦ by
    have h20 : ¬t < 20 := by omega
    have h40 : ¬t < 40 := by omega
    have h60 : t < 60 := by omega
    refine ⟨?_, by rw [Sha1.roundConst, if_neg h20, if_neg h40, if_pos h60, k_40_59]⟩
    rw [Sha1.roundFn, if_neg h20, if_neg h40, if_pos h60, f_40_59_eq]) buffer
  have h80 := foldl_doRound (m := 60) (f := f_60_79) (k := k_60_79) (by decide) (fun t ht ht' ↦ by
    have h20 : ¬t < 20 := by omega
    have h40 : ¬t < 40 := by omega
    have h60 : ¬t < 60 := by omega
    refine ⟨?_, by rw [Sha1.roundConst, if_neg h20, if_neg h40, if_neg h60, k_60_79]⟩
    rw [Sha1.roundFn, if_neg h20, if_neg h40, if_neg h60]
    rfl) buffer
  have hsplit : List.range 80 =
      List.range' 0 20 ++ List.range' 20 20 ++ List.range' 40 20 ++ List.range' 60 20 := by decide
  rw [hsplit, List.foldl_append, List.foldl_append, List.foldl_append, sha1Rounds, h20, h40, h60,
    h80]

theorem addWorking_eq (hash : Vector UInt32 5) (v : Working) :
    addWorking hash v = Sha1.addHash v hash := by
  simp only [addWorking, Sha1.addHash, Working.ofHash, Working.toHash, UInt32.add_comm]

/-- `SHA1Guts` is the block function of the standard. -/
theorem hash_sha1Guts (sc : SHA1Context) :
    (sha1Guts sc sc.buffer.words).hash = Sha1.compress sc.hash sc.buffer.bytes := by
  rw [sha1Guts, sha1Rounds_words, addWorking_eq, Sha1.compress]

end BitTorrent
