import Mathlib.Data.List.Basic
import Mathlib.Data.List.GetD
import Mathlib.Data.List.Induction
import Mathlib.Order.Lattice

/-!
# Files written out of order

A file opened for writing is its bytes and a position.  `fseek` may put the position anywhere,
and what is written behind the end of the file leaves a gap of zeros.  Blocks of one size, each
written once at a multiple of its own, make the same file in any order.
-/

namespace Stdio

/-- `data` written over a file from `pos` on, behind a gap of zeros if need be. -/
def overwrite (file : List UInt8) (pos : Nat) (data : List UInt8) : List UInt8 :=
  if data = [] then file
  else (file ++ List.replicate (pos - file.length) 0).take pos ++ data ++
    file.drop (pos + data.length)

/-- The position after `fseek(fp, off, SEEK_SET)`: a negative one is refused. -/
def seek (pos : Nat) (off : Int) : Nat := if 0 ≤ off then off.toNat else pos

/-- A file opened for writing. -/
structure OutFile where
  bytes : List UInt8
  pos : Nat

namespace OutFile

/-- A file opened with `"w+"`. -/
def create : OutFile := { bytes := [], pos := 0 }

/-- `fseek`, from the start of the file. -/
def fseek (f : OutFile) (off : Int) : OutFile := { f with pos := seek f.pos off }

/-- `fwrite` -/
def fwrite (f : OutFile) (data : List UInt8) : OutFile where
  bytes := overwrite f.bytes f.pos data
  pos := f.pos + data.length

/-- Each of `writes` at its offset. -/
def writeAll (f : OutFile) (writes : List (Int × List UInt8)) : OutFile :=
  writes.foldl (fun f w ↦ (f.fseek w.1).fwrite w.2) f

end OutFile

/-- A file just opened is read from its start if the offset is refused. -/
theorem seek_zero (off : Int) : seek 0 off = off.toNat := by
  rw [seek]
  split
  · rfl
  · next hneg => rw [Int.toNat_of_nonpos (Int.le_of_lt (not_le.mp hneg))]

theorem seek_natCast (pos off : Nat) : seek pos off = off := by
  rw [seek, if_pos (Int.natCast_nonneg off), Int.toNat_natCast]

/-! ## One write -/

section Overwrite

variable {data : List UInt8}

theorem length_overwrite (h : data ≠ []) (file : List UInt8) (pos : Nat) :
    (overwrite file pos data).length = max file.length (pos + data.length) := by
  rw [overwrite, if_neg h]
  simp only [List.length_append, List.length_take, List.length_replicate, List.length_drop]
  omega

/-- Each byte is the one written there, if there is one, and the old one otherwise. -/
theorem getD_overwrite (h : data ≠ []) (file : List UInt8) (pos i : Nat) :
    (overwrite file pos data).getD i 0 =
      if pos ≤ i ∧ i < pos + data.length then data.getD (i - pos) 0 else file.getD i 0 := by
  rw [overwrite, if_neg h, List.append_assoc]
  generalize hfront : (file ++ List.replicate (pos - file.length) 0).take pos = front
  have hlen : front.length = pos := by
    rw [← hfront, List.length_take, List.length_append, List.length_replicate]
    omega
  rcases Nat.lt_or_ge i pos with hlt | hge
  · rw [if_neg fun hc ↦ absurd hc.1 (Nat.not_le_of_lt hlt), List.getD_append _ _ _ _ (hlen ▸ hlt),
      ← hfront, List.getD_eq_getElem?_getD, List.getElem?_take_of_lt hlt,
      ← List.getD_eq_getElem?_getD]
    rcases Nat.lt_or_ge i file.length with hin | hout
    · rw [List.getD_append _ _ _ _ hin]
    · rw [List.getD_append_right _ _ _ _ hout, List.getD_replicate 0 (Nat.sub_lt_sub_right hout hlt),
        List.getD_eq_default _ _ hout]
  · rw [List.getD_append_right _ _ _ _ (hlen ▸ hge), hlen]
    rcases Nat.lt_or_ge i (pos + data.length) with hin | hout
    · rw [if_pos ⟨hge, hin⟩, List.getD_append _ _ _ _ (by omega)]
    · rw [if_neg fun hc ↦ absurd hc.2 (Nat.not_lt_of_ge hout),
        List.getD_append_right _ _ _ _ (by omega), List.getD_eq_getElem?_getD, List.getElem?_drop,
        List.getD_eq_getElem?_getD]
      congr 2
      omega

end Overwrite

/-! ## Blocks -/

section Blocks

variable {size : Nat} {blocks blocks' : List (Nat × List UInt8)} {file file' : List UInt8}

/-- The number of the block in which a byte lies. -/
theorem mul_add_div_of_lt {size j : Nat} (h : j < size) (i : Nat) : (i * size + j) / size = i := by
  rw [Nat.mul_comm, Nat.mul_add_div (Nat.zero_lt_of_lt h), Nat.div_eq_of_lt h, Nat.add_zero]

/-- Numbered blocks, each written at the multiple of `size` that its number gives. -/
def writeBlocks (size : Nat) (blocks : List (Nat × List UInt8)) : List UInt8 :=
  blocks.foldl (fun file b ↦ overwrite file (b.1 * size) b.2) []

/-- `file` is what the blocks make it: their bytes at their places, zeros between them, and
the end of the last one at its end. -/
structure Holds (size : Nat) (blocks : List (Nat × List UInt8)) (file : List UInt8) : Prop where
  present : ∀ b ∈ blocks, ∀ j < size, file.getD (b.1 * size + j) 0 = b.2.getD j 0
  absent : ∀ i, (∀ b ∈ blocks, b.1 ≠ i / size) → file.getD i 0 = 0
  length_le : ∀ b ∈ blocks, (b.1 + 1) * size ≤ file.length
  length_eq : file = [] ∨ ∃ b ∈ blocks, file.length = (b.1 + 1) * size

/-- Where each block is written by seeking to it, the position before does not matter. -/
theorem bytes_writeAll (f : OutFile) (size : Nat) (blocks : List (Nat × List UInt8)) :
    (f.writeAll (blocks.map fun b ↦ ((b.1 * size : Nat), b.2))).bytes =
      blocks.foldl (fun file b ↦ overwrite file (b.1 * size) b.2) f.bytes := by
  induction blocks generalizing f with
  | nil => rfl
  | cons b blocks ih =>
      have hpos : (f.fseek (b.1 * size : Nat)).pos = b.1 * size :=
        seek_natCast f.pos (b.1 * size)
      rw [List.map_cons, OutFile.writeAll, List.foldl_cons, List.foldl_cons, ← OutFile.writeAll, ih,
        OutFile.fwrite, hpos]
      rfl

namespace Holds

/-- In what order the blocks come makes no difference. -/
theorem of_perm (h : Holds size blocks file) (hperm : blocks.Perm blocks') :
    Holds size blocks' file where
  present b hb := h.present b (hperm.mem_iff.mpr hb)
  absent i hi := h.absent i fun b hb ↦ hi b (hperm.mem_iff.mp hb)
  length_le b hb := h.length_le b (hperm.mem_iff.mpr hb)
  length_eq := h.length_eq.imp_right fun ⟨b, hb, hlen⟩ ↦ ⟨b, hperm.mem_iff.mp hb, hlen⟩

/-- No file that holds the same blocks is shorter. -/
theorem length_le_length (h : Holds size blocks file) (h' : Holds size blocks file') :
    file.length ≤ file'.length := by
  rcases h.length_eq with rfl | ⟨b, hb, hlen⟩
  · exact Nat.zero_le _
  · exact hlen.trans_le (h'.length_le b hb)

/-- Up to the end of a block there are bytes. -/
theorem lt_length (h : Holds size blocks file) {b : Nat × List UInt8} (hb : b ∈ blocks) {i j : Nat}
    (hi : i ≤ b.1) (hj : j < size) : i * size + j < file.length := by
  have hle := Nat.mul_le_mul_right size (Nat.succ_le_succ hi)
  rw [Nat.succ_mul] at hle
  exact (Nat.add_lt_add_left hj _).trans_le (hle.trans (h.length_le b hb))

theorem getElem?_of_mem (h : Holds size blocks file) {b : Nat × List UInt8} (hb : b ∈ blocks)
    (hlen : b.2.length = size) {j : Nat} (hj : j < size) :
    file[b.1 * size + j]? = b.2[j]? := by
  have hbyte := h.present b hb j hj
  have hin := h.lt_length hb (Nat.le_refl _) hj
  have hj' : j < b.2.length := hj.trans_eq hlen.symm
  rw [List.getD_eq_getElem _ _ hin, List.getD_eq_getElem _ _ hj'] at hbyte
  rw [List.getElem?_eq_getElem hin, List.getElem?_eq_getElem hj', hbyte]

/-- A gap is filled with zeros. -/
theorem getElem?_of_lt (h : Holds size blocks file) {b : Nat × List UInt8} (hb : b ∈ blocks)
    {i j : Nat} (hi : i < b.1) (hmissing : ∀ b ∈ blocks, b.1 ≠ i) (hj : j < size) :
    file[i * size + j]? = some 0 := by
  have hin := h.lt_length hb hi.le hj
  have hbyte := h.absent (i * size + j) (by rwa [mul_add_div_of_lt hj])
  rw [List.getD_eq_getElem _ _ hin] at hbyte
  rw [List.getElem?_eq_getElem hin, hbyte]

/-- The file ends with the block that has the highest number. -/
theorem exists_last (h : Holds size blocks file) (hsize : 0 < size) (hne : blocks ≠ []) :
    ∃ b ∈ blocks, (∀ b' ∈ blocks, b'.1 ≤ b.1) ∧ file.length = (b.1 + 1) * size := by
  rcases h.length_eq with rfl | ⟨b, hb, heq⟩
  · obtain ⟨b, hb⟩ := List.exists_mem_of_ne_nil _ hne
    cases h.lt_length hb (Nat.le_refl _) hsize
  · refine ⟨b, hb, fun b' hb' ↦ ?_, heq⟩
    exact Nat.le_of_succ_le_succ
      (Nat.le_of_mul_le_mul_right ((h.length_le b' hb').trans_eq heq) hsize)

/-- There is one such file. -/
theorem unique (hsize : 0 < size) (h : Holds size blocks file) (h' : Holds size blocks file') :
    file = file' := by
  have hlen := Nat.le_antisymm (h.length_le_length h') (h'.length_le_length h)
  have hbyte : ∀ i, file.getD i 0 = file'.getD i 0 := by
    intro i
    by_cases hi : ∀ b ∈ blocks, b.1 ≠ i / size
    · rw [h.absent i hi, h'.absent i hi]
    · simp only [not_forall, not_not] at hi
      obtain ⟨b, hb, hnum⟩ := hi
      rw [← Nat.div_add_mod' i size, ← hnum, h.present b hb _ (Nat.mod_lt i hsize),
        h'.present b hb _ (Nat.mod_lt i hsize)]
  apply List.ext_getElem hlen
  intro i hi hi'
  rw [← List.getD_eq_getElem _ 0 hi, ← List.getD_eq_getElem _ 0 hi', hbyte]

/-- Writing another block. -/
theorem overwrite (hsize : 0 < size) (h : Holds size blocks file) {b : Nat × List UInt8}
    (hnew : ∀ b' ∈ blocks, b'.1 ≠ b.1) (hlen : b.2.length = size) :
    Holds size (blocks ++ [b]) (overwrite file (b.1 * size) b.2) := by
  have hdata : b.2 ≠ [] := List.ne_nil_of_length_pos (hlen ▸ hsize)
  have hend : b.1 * size + b.2.length = (b.1 + 1) * size := by rw [hlen, Nat.succ_mul]
  -- a byte is in the block exactly if the number fits
  have hbyte : ∀ i, (Stdio.overwrite file (b.1 * size) b.2).getD i 0 =
      if b.1 = i / size then b.2.getD (i - b.1 * size) 0 else file.getD i 0 := by
    intro i
    rw [getD_overwrite hdata, hend]
    refine if_congr ?_ rfl rfl
    rw [eq_comm, Nat.div_eq_iff hsize]
    have hsucc := Nat.succ_mul b.1 size
    omega
  refine ⟨?_, ?_, ?_, ?_⟩
  · intro b' hb' j hj
    rw [hbyte, mul_add_div_of_lt hj]
    rcases List.mem_append.mp hb' with hold | hlast
    · rw [if_neg (Ne.symm (hnew b' hold)), h.present b' hold j hj]
    · rw [List.mem_singleton.mp hlast, if_pos rfl, Nat.add_sub_cancel_left]
  · intro i hi
    rw [hbyte, if_neg (hi b (List.mem_append_right _ (List.mem_singleton_self b))),
      h.absent i fun b' hb' ↦ hi b' (List.mem_append_left _ hb')]
  · intro b' hb'
    rw [length_overwrite hdata, hend]
    rcases List.mem_append.mp hb' with hold | hlast
    · exact Nat.le_trans (h.length_le b' hold) (Nat.le_max_left _ _)
    · rw [List.mem_singleton.mp hlast]
      exact Nat.le_max_right _ _
  · right
    rw [length_overwrite hdata, hend]
    rcases Nat.le_total file.length ((b.1 + 1) * size) with hle | hge
    · exact ⟨b, List.mem_append_right _ (List.mem_singleton_self b), Nat.max_eq_right hle⟩
    · rcases h.length_eq with rfl | ⟨b', hb', heq⟩
      · exact ⟨b, List.mem_append_right _ (List.mem_singleton_self b), Nat.max_eq_right (Nat.zero_le _)⟩
      · exact ⟨b', List.mem_append_left _ hb', (Nat.max_eq_left hge).trans heq⟩

end Holds

/-- Blocks with numbers of their own make the file that holds them. -/
theorem holds_writeBlocks (hsize : 0 < size) (hnum : (blocks.map Prod.fst).Nodup)
    (hlen : ∀ b ∈ blocks, b.2.length = size) : Holds size blocks (writeBlocks size blocks) := by
  induction blocks using List.reverseRecOn with
  | nil =>
      refine ⟨?_, fun _ _ ↦ rfl, ?_, .inl rfl⟩
      · exact fun b hb ↦ absurd hb List.not_mem_nil
      · exact fun b hb ↦ absurd hb List.not_mem_nil
  | append_singleton blocks b ih =>
      rw [List.map_append, List.nodup_append] at hnum
      obtain ⟨hold, -, hnew⟩ := hnum
      have hfile := ih hold fun b' hb' ↦ hlen b' (List.mem_append_left _ hb')
      rw [writeBlocks, List.foldl_append]
      refine hfile.overwrite hsize ?_ (hlen b (List.mem_append_right _ (List.mem_singleton_self b)))
      exact fun b' hb' ↦ hnew b'.1 (List.mem_map_of_mem hb') b.1 (List.mem_singleton_self _)

/-- Blocks that are cut out of one file, however often each is written: they are where they
were, there are zeros between them, and the file does not get longer. -/
theorem getD_writeBlocks_of_cut (hsize : 0 < size)
    (h : ∀ b ∈ blocks, b.2 = (file.drop (b.1 * size)).take size ∧ b.2.length = size) :
    (writeBlocks size blocks).length ≤ file.length ∧ ∀ i, (writeBlocks size blocks).getD i 0 =
      if ∃ b ∈ blocks, b.1 = i / size then file.getD i 0 else 0 := by
  induction blocks using List.reverseRecOn with
  | nil => exact ⟨Nat.zero_le _, fun i ↦ by simp [writeBlocks]⟩
  | append_singleton blocks b ih =>
      obtain ⟨hle, hbytes⟩ := ih fun b' hb' ↦ h b' (List.mem_append_left _ hb')
      obtain ⟨hcut, hlen⟩ := h b (List.mem_append_right _ (List.mem_singleton_self b))
      have hdata : b.2 ≠ [] := List.ne_nil_of_length_pos (hlen ▸ hsize)
      have hfit : b.1 * size + size ≤ file.length := by
        rw [hcut, List.length_take, List.length_drop] at hlen
        omega
      rw [writeBlocks, List.foldl_append, List.foldl_cons, List.foldl_nil, ← writeBlocks]
      constructor
      · rw [length_overwrite hdata, hlen]
        exact Nat.max_le.mpr ⟨hle, hfit⟩
      · intro i
        rw [getD_overwrite hdata, hbytes, hlen]
        have hin : b.1 * size ≤ i ∧ i < b.1 * size + size ↔ b.1 = i / size := by
          rw [eq_comm, Nat.div_eq_iff hsize]
          omega
        simp only [List.mem_append, List.mem_singleton, or_and_right, exists_or, exists_eq_left, hin]
        by_cases hb : b.1 = i / size
        · obtain ⟨hlow, hhigh⟩ := hin.mpr hb
          rw [if_pos hb, if_pos (.inr hb), hcut, List.getD_eq_getElem?_getD,
            List.getElem?_take_of_lt (by omega), List.getElem?_drop, Nat.add_sub_cancel' hlow,
            List.getD_eq_getElem?_getD]
        · simp only [hb, or_false, if_false]

end Blocks

end Stdio
