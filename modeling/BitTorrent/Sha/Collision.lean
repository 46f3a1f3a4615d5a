import BitTorrent.Sha.Stream

/-!
# Inputs with the same hash

The padding writes the length of a message into its last block.  So if `shahash`
gives two different inputs the same twenty bytes, there are two calls of
`SHA1Guts` among those made for them that have different arguments and leave the
same hash value.  Whoever wants to pass off other bytes for those of a chunk has
to come by such calls first.
-/

namespace BitTorrent

variable {m m' : List UInt8}

namespace Sha1

theorem digest_inj {h h' : Vector UInt32 5} (heq : digest h = digest h') : h = h' := by
  have key (ws ws' : List UInt32)
      (hws : (ws.flatMap fun w ↦ Endian.bytes .big 4 w.toNat) =
        ws'.flatMap fun w ↦ Endian.bytes .big 4 w.toNat) (hlen : ws.length = ws'.length) :
      ws = ws' := by
    induction ws generalizing ws' with
    | nil => exact (List.eq_nil_of_length_eq_zero hlen.symm).symm
    | cons w ws ih =>
        cases ws' with
        | nil => cases hlen
        | cons w' ws' =>
            rw [List.flatMap_cons, List.flatMap_cons] at hws
            obtain ⟨hfirst, hrest⟩ := List.append_inj hws (by simp only [Endian.length_bytes])
            have hw := congrArg (Endian.ofBytes .big) hfirst
            rw [Endian.ofBytes_bytes (n := 4) .big w.toNat_lt,
              Endian.ofBytes_bytes (n := 4) .big w'.toNat_lt] at hw
            rw [UInt32.toNat_inj.mp hw, ih ws' hrest (Nat.succ.inj hlen)]
  exact Vector.toList_inj.mp (key _ _ heq (by simp only [Vector.length_toList]))

/-- The padding of a message ends in its length. -/
theorem drop_pad (m : List UInt8) :
    (pad m).drop ((pad m).length - 8) = Endian.bytes .big 8 (8 * m.length) := by
  have hsplit : pad m =
      (m ++ 0x80 :: List.replicate (zeros m.length) 0) ++ Endian.bytes .big 8 (8 * m.length) := by
    rw [pad, padTail, List.append_assoc]
  have hlen : (pad m).length - 8 = (m ++ 0x80 :: List.replicate (zeros m.length) 0).length := by
    rw [hsplit, List.length_append, Endian.length_bytes, Nat.add_sub_cancel]
  rw [hlen, hsplit, List.drop_left]

theorem padBlocks_ne_nil (m : List UInt8) : padBlocks m ≠ [] := by
  intro hnil
  have hflat := flatten_padBlocks m
  rw [hnil, List.flatten_nil, pad, padTail] at hflat
  exact absurd (congrArg List.length hflat) (by simp)

/-- So does its last block. -/
theorem drop_getLast_padBlocks (m : List UInt8) :
    ((padBlocks m).getLast (padBlocks_ne_nil m)).drop 56 = Endian.bytes .big 8 (8 * m.length) := by
  have hlast := length_of_mem_padBlocks (List.getLast_mem (padBlocks_ne_nil m))
  have hflat : (padBlocks m).dropLast.flatten ++ (padBlocks m).getLast (padBlocks_ne_nil m) =
      pad m := by
    rw [← flatten_padBlocks m]
    conv_rhs => rw [← List.dropLast_append_getLast (padBlocks_ne_nil m)]
    rw [List.flatten_append, List.flatten_singleton]
  have hdrop := drop_pad m
  rw [← hflat, List.length_append, hlast] at hdrop
  rw [← hdrop, Nat.add_sub_assoc (by decide), List.drop_append, Nat.add_sub_cancel_left,
    List.drop_of_length_le (Nat.le_add_right ..), List.nil_append]

theorem length_eq_of_bytes (hm : m.length < 2 ^ 61) (hm' : m'.length < 2 ^ 61)
    (h : Endian.bytes .big 8 (8 * m.length) = Endian.bytes .big 8 (8 * m'.length)) :
    m.length = m'.length := by
  have heq := congrArg (Endian.ofBytes .big) h
  rw [Endian.ofBytes_bytes .big (by omega), Endian.ofBytes_bytes .big (by omega)] at heq
  exact Nat.eq_of_mul_eq_mul_left (by decide) heq

/-- Messages with the same hash are the same, or there is a collision on the way. -/
theorem eq_or_collision (hm : m.length < 2 ^ 61) (hm' : m'.length < 2 ^ 61)
    (h : hash m = hash m') : m = m' ∨ BlockHash.Collision compress (calls m) (calls m') := by
  have hlast (heq : (padBlocks m).getLast (padBlocks_ne_nil m) =
      (padBlocks m').getLast (padBlocks_ne_nil m')) : m.length = m'.length := by
    refine length_eq_of_bytes hm hm' ?_
    rw [← drop_getLast_padBlocks, ← drop_getLast_padBlocks, heq]
  have hcount (heq : m.length = m'.length) : (padBlocks m).length = (padBlocks m').length := by
    rw [padBlocks, padBlocks, BlockHash.length_blocks, BlockHash.length_blocks, pad, pad,
      List.length_append, List.length_append, heq]
  rcases BlockHash.eq_or_collision_of_last (padBlocks_ne_nil m) (padBlocks_ne_nil m')
      (fun heq ↦ hcount (hlast heq)) (digest_inj h) with hblocks | hcol
  · have hpad : pad m = pad m' := by rw [← flatten_padBlocks, hblocks, flatten_padBlocks]
    have hdrop := drop_pad m
    rw [hpad, drop_pad] at hdrop
    exact .inl (List.append_inj hpad (length_eq_of_bytes hm' hm hdrop).symm).1
  · exact .inr hcol

end Sha1

/-- Among the calls of `SHA1Guts` for the two messages (those of `shahashCalls_eq`) there are
two, one for each, that differ in the hash value or in the block, and leave the same hash
value. -/
def GutsCollision (m m' : List UInt8) : Prop :=
  ∃ sc sc' : SHA1Context, sc.call ∈ Sha1.calls m ∧ sc'.call ∈ Sha1.calls m' ∧ sc.call ≠ sc'.call ∧
    (sha1Guts sc sc.buffer.words).hash = (sha1Guts sc' sc'.buffer.words).hash

theorem gutsCollision_iff :
    GutsCollision m m' ↔ BlockHash.Collision Sha1.compress (Sha1.calls m) (Sha1.calls m') := by
  constructor
  · rintro ⟨sc, sc', hcall, hcall', hne, heq⟩
    rw [hash_sha1Guts, hash_sha1Guts] at heq
    exact ⟨_, hcall, _, hcall', hne, heq⟩
  · rintro ⟨⟨h, b⟩, hcall, ⟨h', b'⟩, hcall', hne, heq⟩
    have hb : b.length = 64 := Sha1.length_of_mem_padBlocks (BlockHash.mem_of_mem_calls hcall)
    have hb' : b'.length = 64 := Sha1.length_of_mem_padBlocks (BlockHash.mem_of_mem_calls hcall')
    refine ⟨⟨0, h, 0, ⟨b, hb⟩⟩, ⟨0, h', 0, ⟨b', hb'⟩⟩, hcall, hcall', hne, ?_⟩
    rw [hash_sha1Guts, hash_sha1Guts]
    exact heq

/-- Two inputs that are given the same hash are the same bytes, or there is a collision of
`SHA1Guts` among the calls made for them. -/
theorem eq_or_gutsCollision_of_shahash_eq (sha sha' : SHA1Context) {str str' : List UInt8}
    {len len' : UInt32} (hlen : len.toNat ≤ str.length) (hlen' : len'.toNat ≤ str'.length)
    (h : shahash sha str len = shahash sha' str' len') :
    str.take len.toNat = str'.take len'.toNat ∨
      GutsCollision (str.take len.toNat) (str'.take len'.toNat) := by
  rw [shahash_eq sha hlen, shahash_eq sha' hlen', Option.some.injEq] at h
  have hbound (n : UInt32) {l : List UInt8} (hle : n.toNat ≤ l.length) :
      (l.take n.toNat).length < 2 ^ 61 := by
    have := n.toNat_lt
    rw [List.length_take_of_le hle]
    omega
  rw [gutsCollision_iff]
  exact Sha1.eq_or_collision (hbound len hlen) (hbound len' hlen') h

/-- The same three bytes, once with another behind them. -/
theorem eq_or_gutsCollision_of_shahash_eq_abc :
    [(97 : UInt8), 98, 99, 100].take (3 : UInt32).toNat = [97, 98, 99].take (3 : UInt32).toNat ∨
      GutsCollision ([97, 98, 99, 100].take (3 : UInt32).toNat)
        ([97, 98, 99].take (3 : UInt32).toNat) := by
  have hlen : (3 : UInt32).toNat ≤ [(97 : UInt8), 98, 99, 100].length := by decide
  have hlen' : (3 : UInt32).toNat ≤ [(97 : UInt8), 98, 99].length := by decide
  refine eq_or_gutsCollision_of_shahash_eq zeroContext zeroContext hlen hlen' ?_
  rw [shahash_eq zeroContext hlen, shahash_eq zeroContext hlen']
  rfl

end BitTorrent
