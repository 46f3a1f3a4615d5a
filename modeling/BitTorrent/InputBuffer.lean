import BitTorrent.Library.Bytes
import BitTorrent.Library.Lines
import BitTorrent.Library.Run

/-!
# The input buffer

`process_user_input` of `input_buffer.c` appends what `read` gives to a buffer, hands over every
line the buffer then holds and moves what is left to the front.  It looks for a newline in the
string the buffer holds, which ends at the first terminator.  Moving the rest leaves old bytes
at the end of the buffer: they are taken for input once `read` has overwritten the terminator
in front of them.
-/

namespace BitTorrent

/-- `USERBUF_SIZE` -/
def userbufSize : Nat := 8191

/-- `struct user_iobuf`: a buffer of `USERBUF_SIZE + 1` bytes, with a terminator at its end. -/
structure UserIobuf where
  buf : List UInt8
  cur : UInt32
  size_eq : buf.length = userbufSize + 1
  last_eq : buf[userbufSize]? = some 0

namespace UserIobuf

variable {b b' : UserIobuf} {body data behind t : List UInt8}

/-- `create_userbuf` -/
def create : UserIobuf where
  buf := List.replicate (userbufSize + 1) 0
  cur := 0
  size_eq := List.length_replicate
  last_eq := by rw [List.getElem?_replicate, if_pos (Nat.lt_succ_self _)]

/-- `read(fd, buf + cur, USERBUF_SIZE - cur)`, which gives `bytes`: not more than it was asked
for. -/
def read (b : UserIobuf) (bytes : List UInt8) : Option UserIobuf :=
  if h : b.cur.toNat + bytes.length ≤ userbufSize then
    some {
      buf := b.buf.take b.cur.toNat ++ bytes ++ b.buf.drop (b.cur.toNat + bytes.length)
      cur := b.cur + UInt32.ofNat bytes.length
      size_eq := by
        have hsize := b.size_eq
        simp only [List.length_append, List.length_take, List.length_drop]
        omega
      last_eq := by
        have hsize := b.size_eq
        have hfront : (b.buf.take b.cur.toNat ++ bytes).length = b.cur.toNat + bytes.length := by
          rw [List.length_append, List.length_take_of_le (by omega)]
        rw [List.getElem?_append_right (hfront.trans_le h), List.getElem?_drop, hfront,
          Nat.add_sub_cancel' h, b.last_eq] }
  else none

/-- `memmove(buf, buf + off, n)`, within the buffer if `off + n` is. -/
def moveFront (buf : List UInt8) (off n : Nat) : List UInt8 := (buf.drop off).take n ++ buf.drop n

/-- A newline at `r` is overwritten and what stands behind it moved to the front.  As many bytes
at the end of the buffer stay as they were. -/
def shift (b : UserIobuf) (r : Nat) : UserIobuf where
  buf := moveFront (b.buf.set r 0) (r + 1) (userbufSize - r)
  cur := b.cur - UInt32.ofNat (r + 1)
  size_eq := by
    have hsize := b.size_eq
    simp only [moveFront, List.length_append, List.length_take, List.length_drop, List.length_set]
    omega
  last_eq := by
    have hsize := b.size_eq
    have hfront : (((b.buf.set r 0).drop (r + 1)).take (userbufSize - r)).length = userbufSize - r := by
      rw [List.length_take, List.length_drop, List.length_set]
      omega
    rw [moveFront, List.getElem?_append_right (hfront.trans_le (Nat.sub_le _ _)), hfront,
      List.getElem?_drop, Nat.add_sub_cancel' (Nat.sub_le _ _), List.getElem?_set, b.last_eq]
    split
    · rw [if_pos (by omega)]
    · rfl

/-- The terminator at the end. -/
theorem zero_mem (b : UserIobuf) : 0 ∈ b.buf := List.mem_of_getElem? b.last_eq

/-- Overwriting a character that has been found. -/
theorem set_buf {c : UInt8} (h : b.buf = body ++ c :: t) :
    b.buf.set body.length 0 = body ++ 0 :: t := by
  rw [h, List.set_append_right _ _ (Nat.le_refl _), Nat.sub_self]
  rfl

/-- After a newline has been found, the bytes behind it are in front. -/
theorem buf_shift {c : UInt8} (h : b.buf = body ++ c :: t) :
    (b.shift body.length).buf = t ++ (body ++ 0 :: t).drop t.length := by
  have hlen : t.length = userbufSize - body.length := by
    have hsize := b.size_eq
    rw [h, List.length_append, List.length_cons] at hsize
    omega
  have hrest : (body ++ 0 :: t).drop (body.length + 1) = t := by
    rw [← List.drop_drop, List.drop_left]
    rfl
  show moveFront (b.buf.set body.length 0) _ _ = _
  rw [set_buf h, moveFront, hrest, ← hlen, List.take_length]

/-- The string in the buffer gets shorter. -/
theorem length_cString_shift {r : Nat} (h : Stdio.strchr b.buf 10 = some r) :
    (Stdio.cString (b.shift r).buf).length < (Stdio.cString b.buf).length := by
  obtain ⟨body, t, hbuf, rfl, h0, -, -⟩ := Stdio.exists_of_strchr h
  have hmem : 0 ∈ t := by
    have hzero := b.zero_mem
    rw [hbuf] at hzero
    simpa [h0] using hzero
  rw [buf_shift hbuf, Stdio.cString_append_of_mem hmem, hbuf, Stdio.cString_append h0,
    List.length_append]
  show _ < body.length + ((10 : UInt8) :: Stdio.cString t).length
  rw [List.length_cons]
  omega

/-- The loop of `process_user_input`, with the lines it hands to `handle_line`. -/
def processLines (b : UserIobuf) : List (List UInt8) × UserIobuf :=
  match _h : Stdio.strchr b.buf 10 with
  | none => ([], b)
  | some r =>
      let (lines, b') := (b.shift r).processLines
      (Stdio.cString (b.buf.set r 0) :: lines, b')
termination_by (Stdio.cString b.buf).length
decreasing_by exact length_cString_shift _h

/-! ## What the loop finds -/

theorem processLines_of_notMem (h : 10 ∉ Stdio.cString b.buf) : b.processLines = ([], b) := by
  rw [processLines]
  split
  · rfl
  · next r hr =>
      rw [Stdio.strchr_of_notMem h] at hr
      cases hr

/-- The first line, and the loop again. -/
theorem processLines_of_eq (h : b.buf = body ++ 10 :: t) (h0 : 0 ∉ body) (hbody : 10 ∉ body) :
    b.processLines =
      (body :: (b.shift body.length).processLines.1, (b.shift body.length).processLines.2) := by
  have hfound := Stdio.strchr_append h0 hbody (by decide) t
  rw [processLines]
  split
  · next hr =>
      rw [h, hfound] at hr
      cases hr
  · next r hr =>
      rw [h, hfound] at hr
      cases hr
      rw [set_buf h, Stdio.cString_append_zero h0]

/-- The newline that ends a line of the data, taken off the count. -/
theorem cur_shift {s : List UInt8} (h : b.cur.toNat = (body ++ 10 :: s).length) :
    (b.shift body.length).cur.toNat = s.length := by
  rw [List.length_append, List.length_cons] at h
  have hlt := b.cur.toNat_lt
  have hofNat : (UInt32.ofNat (body.length + 1)).toNat = body.length + 1 := by
    rw [UInt32.toNat_ofNat']
    exact Nat.mod_eq_of_lt (by omega)
  show (b.cur - UInt32.ofNat (body.length + 1)).toNat = _
  rw [UInt32.toNat_sub_of_le _ _ (UInt32.le_iff_toNat_le.mpr (by omega)), hofNat]
  omega

/-- The bytes behind the data end in a terminator. -/
theorem zero_mem_behind (h : b.buf = data ++ behind) (h0 : 0 ∉ data) : 0 ∈ behind := by
  have hzero := b.zero_mem
  rw [h, List.mem_append] at hzero
  exact hzero.resolve_left h0

/-- One round of the loop: it hands over the first line, and the rest of the data comes to stand
at the front, with the same string behind it. -/
theorem processLines_line {s : List UInt8} (hbuf : b.buf = (body ++ 10 :: s) ++ behind)
    (h0 : 0 ∉ body ++ 10 :: s) (hbody : 10 ∉ body) :
    0 ∉ s ∧ b.processLines =
        (body :: (b.shift body.length).processLines.1, (b.shift body.length).processLines.2) ∧
      ∃ behind', (b.shift body.length).buf = s ++ behind' ∧
        Stdio.cString behind' = Stdio.cString behind := by
  have hzero := zero_mem_behind hbuf h0
  rw [List.append_assoc, List.cons_append] at hbuf
  rw [List.mem_append, List.mem_cons, not_or, not_or] at h0
  obtain ⟨hbody0, -, hs0⟩ := h0
  have hshift := buf_shift hbuf
  rw [List.append_assoc] at hshift
  exact ⟨hs0, processLines_of_eq hbuf hbody0 hbody, _, hshift, Stdio.cString_append_of_mem hzero _⟩

/-- With no newline in the string behind the data, the loop hands over the lines of the data and
keeps what stands behind them. -/
theorem processLines_spec (hbuf : b.buf = data ++ behind) (hcur : b.cur.toNat = data.length)
    (h0 : 0 ∉ data) (hbehind : 10 ∉ Stdio.cString behind) :
    b.processLines.1 = (Stdio.splitLines data).1 ∧
      b.processLines.2.cur.toNat = (Stdio.splitLines data).2.length ∧
      (Stdio.splitLines data).2 <+: b.processLines.2.buf := by
  induction data using Stdio.line_induction generalizing b behind with
  | htail tail htail =>
      have hnone : 10 ∉ Stdio.cString b.buf := by
        rw [hbuf, Stdio.cString_append h0, List.mem_append]
        exact fun h ↦ h.elim htail hbehind
      rw [processLines_of_notMem hnone, Stdio.splitLines_of_notMem htail]
      exact ⟨rfl, hcur, hbuf ▸ List.prefix_append _ _⟩
  | hline body s hbody ih =>
      obtain ⟨hs0, hround, behind', hshift, hsame⟩ := processLines_line hbuf h0 hbody
      rw [← hsame] at hbehind
      obtain ⟨hlines, hcur', hprefix⟩ := ih hshift (cur_shift hcur) hs0 hbehind
      rw [hround, Stdio.splitLines_append hbody]
      exact ⟨congrArg (body :: ·) hlines, hcur', hprefix⟩

/-- With a newline there, it hands over more. -/
theorem length_processLines (hbuf : b.buf = data ++ behind) (h0 : 0 ∉ data)
    (hbehind : 10 ∈ Stdio.cString behind) :
    (Stdio.splitLines data).1.length < b.processLines.1.length := by
  induction data using Stdio.line_induction generalizing b behind with
  | htail tail htail =>
      rw [Stdio.splitLines_of_notMem htail]
      have hmem : 10 ∈ Stdio.cString b.buf := by
        rw [hbuf, Stdio.cString_append h0]
        exact List.mem_append_right _ hbehind
      obtain ⟨body, t, hsplit, -, hbody0, hbody, -⟩ :=
        Stdio.exists_of_strchr (Stdio.strchr_of_mem hmem)
      rw [processLines_of_eq hsplit hbody0 hbody]
      exact Nat.succ_pos _
  | hline body s hbody ih =>
      obtain ⟨hs0, hround, behind', hshift, hsame⟩ := processLines_line hbuf h0 hbody
      rw [← hsame] at hbehind
      have hlt := ih hshift hs0 hbehind
      rw [hround, Stdio.splitLines_append hbody]
      exact Nat.succ_lt_succ hlt

end UserIobuf

/-! ## Calls of the function -/

/-- A stream that is read through the buffer: what has been read of it and what has not, the
lines handed over, and whether a full buffer has ended the program. -/
structure Session where
  userbuf : UserIobuf
  input : List UInt8
  rest : List UInt8
  handed : List (List UInt8)
  exited : Bool

namespace Session

variable {stream : List UInt8} {s s' : Session} {n : Nat}

/-- Nothing has been read. -/
def start (stream : List UInt8) : Session where
  userbuf := .create
  input := []
  rest := stream
  handed := []
  exited := false

/-- `process_user_input`, with a `read` that gives the next `n` bytes of the stream. -/
def processUserInput (s : Session) (n : Nat) : Option Session :=
  if s.exited then none
  else if userbufSize - 1 ≤ s.userbuf.cur.toNat then some { s with exited := true }
  else if n ≤ s.rest.length then
    (s.userbuf.read (s.rest.take n)).map fun b ↦
      let (lines, b) := b.processLines
      { s with
        userbuf := b
        input := s.input ++ s.rest.take n
        rest := s.rest.drop n
        handed := s.handed ++ lines }
  else none

/-- What the function is meant to keep true: the lines of the input have been handed over, each
once and in order, and the buffer starts with what stands behind them, which `cur` counts. -/
structure Framed (s : Session) : Prop where
  running : s.exited = false
  handed : s.handed = (Stdio.splitLines s.input).1
  cur : s.userbuf.cur.toNat = (Stdio.splitLines s.input).2.length
  buf : (Stdio.splitLines s.input).2 <+: s.userbuf.buf

/-- No newline stands in the string that begins, in the old buffer, behind the bytes that are
read. -/
def Clean (s : Session) (n : Nat) : Prop :=
  10 ∉ Stdio.cString (s.userbuf.buf.drop (s.userbuf.cur.toNat + n))

/-- No terminator in the stream, and no line, nor what stands behind the last one, longer than
`USERBUF_SIZE - 2` bytes. -/
structure Fits (stream : List UInt8) : Prop where
  noNul : 0 ∉ stream
  short : ∀ line ∈ (Stdio.splitLines stream).1 ++ [(Stdio.splitLines stream).2],
    line.length ≤ userbufSize - 2

/-- A state in which everything is right, with a stream that fits. -/
structure Sound (s : Session) : Prop where
  framed : s.Framed
  fits : Fits (s.input ++ s.rest)

theorem sound_start (h : Fits stream) : (start stream).Sound where
  framed := ⟨rfl, rfl, rfl, List.nil_prefix⟩
  fits := h

/-- The unfinished line leaves room. -/
theorem Sound.room (h : s.Sound) : ¬ userbufSize - 1 ≤ s.userbuf.cur.toNat := by
  obtain ⟨line, hmem, hprefix⟩ := Stdio.exists_line_of_append
    (Stdio.notMem_of_splitLines s.input).2 s.rest
  have hsplit := Stdio.splitLines_append_rest s.input s.rest
  have hline : line ∈ (Stdio.splitLines (s.input ++ s.rest)).1 ++
      [(Stdio.splitLines (s.input ++ s.rest)).2] := by
    rw [hsplit, List.append_assoc]
    exact List.mem_append_right _ hmem
  have hle := hprefix.length_le.trans (h.fits.short line hline)
  rw [← h.framed.cur, userbufSize] at hle
  rw [userbufSize]
  omega

/-- What a call does: the loop runs on the unfinished line, the new bytes, and the old ones
behind them. -/
theorem Sound.step_cases (h : s.Sound) (hstep : s.processUserInput n = some s') :
    ∃ b : UserIobuf, s' = {
        userbuf := b.processLines.2
        input := s.input ++ s.rest.take n
        rest := s.rest.drop n
        handed := s.handed ++ b.processLines.1
        exited := false } ∧
      b.buf = ((Stdio.splitLines s.input).2 ++ s.rest.take n) ++
        s.userbuf.buf.drop (s.userbuf.cur.toNat + n) ∧
      b.cur.toNat = ((Stdio.splitLines s.input).2 ++ s.rest.take n).length := by
  rw [processUserInput, h.framed.running, if_neg Bool.false_ne_true, if_neg h.room,
    Option.ite_none_right_eq_some] at hstep
  obtain ⟨hn, hstep⟩ := hstep
  obtain ⟨b, hread, rfl⟩ := Option.map_eq_some_iff.mp hstep
  rw [UserIobuf.read, Option.dite_none_right_eq_some] at hread
  obtain ⟨hfit, heq⟩ := hread
  cases heq
  have hlen : (s.rest.take n).length = n := List.length_take_of_le hn
  refine ⟨_, rfl, ?_, ?_⟩
  · show s.userbuf.buf.take s.userbuf.cur.toNat ++ s.rest.take n ++
      s.userbuf.buf.drop (s.userbuf.cur.toNat + (s.rest.take n).length) = _
    rw [hlen, h.framed.cur, ← List.prefix_iff_eq_take.mp h.framed.buf]
  · show (s.userbuf.cur + UInt32.ofNat (s.rest.take n).length).toNat = _
    rw [UInt32.toNat_add, UInt32.toNat_ofNat', List.length_append, ← h.framed.cur]
    rw [userbufSize] at hfit
    omega

/-- A byte of the unfinished line or of what is read is one of the stream. -/
theorem Sound.noNul (h : s.Sound) (n : Nat) :
    0 ∉ (Stdio.splitLines s.input).2 ++ s.rest.take n := by
  intro hmem
  apply h.fits.noNul
  rcases List.mem_append.mp hmem with htail | htake
  · rw [← Stdio.flatMap_splitLines s.input]
    exact List.mem_append_left _ (List.mem_append_right _ htail)
  · exact List.mem_append_right _ (List.mem_of_mem_take htake)

/-- A call keeps everything right if the old bytes hold no newline. -/
theorem Sound.step (h : s.Sound) (hclean : s.Clean n) (hstep : s.processUserInput n = some s') :
    s'.Sound := by
  obtain ⟨b, rfl, hbuf, hcur⟩ := h.step_cases hstep
  obtain ⟨hlines, hcur', hprefix⟩ := UserIobuf.processLines_spec hbuf hcur (h.noNul n) hclean
  have hsplit := Stdio.splitLines_append_rest s.input (s.rest.take n)
  refine ⟨⟨rfl, ?_, ?_, ?_⟩, ?_⟩
  · rw [h.framed.handed, hlines, hsplit]
  · rw [hcur', hsplit]
  · rw [hsplit]
    exact hprefix
  · show Fits (s.input ++ s.rest.take n ++ s.rest.drop n)
    rw [List.append_assoc, List.take_append_drop]
    exact h.fits

/-- With a newline among them it hands over a line too many. -/
theorem Sound.clean_of_framed (h : s.Sound) (hstep : s.processUserInput n = some s')
    (hframed : s'.Framed) : s.Clean n := by
  obtain ⟨b, rfl, hbuf, -⟩ := h.step_cases hstep
  intro hstale
  have hlt := UserIobuf.length_processLines hbuf (h.noNul n) hstale
  have hhanded := congrArg List.length hframed.handed
  simp only [Stdio.splitLines_append_rest s.input, h.framed.handed, List.length_append] at hhanded
  omega

/-- A stream that fits, in whatever pieces it is read: after every call exactly its lines have
been handed over and the buffer starts with what stands behind them, if and only if no call
reads up to old bytes with a newline in their string. -/
theorem framed_iff {counts : List Nat} {t : Session} (hfits : Fits stream)
    (hrun : Machine.run processUserInput (start stream) counts = some t) :
    (∀ ns, ns <+: counts → ∀ t, Machine.run processUserInput (start stream) ns = some t → t.Framed) ↔
      Machine.Along processUserInput Clean (start stream) counts := by
  refine Machine.along_iff_good (I := Sound) (fun _ h ↦ h.framed) ?_ ?_ hrun (sound_start hfits)
  · exact fun _ _ _ h hstep hclean ↦ h.step hclean hstep
  · exact fun _ _ _ h hstep hframed ↦ h.clean_of_framed hstep hframed

/-- A call can read what there is to read, as long as it fits. -/
theorem Sound.exists_step (h : s.Sound) (hn : n ≤ s.rest.length)
    (hfit : s.userbuf.cur.toNat + n ≤ userbufSize) : ∃ s', s.processUserInput n = some s' := by
  have hlen : (s.rest.take n).length = n := List.length_take_of_le hn
  rw [processUserInput, h.framed.running, if_neg Bool.false_ne_true, if_neg h.room, if_pos hn,
    UserIobuf.read, dif_pos (hlen.symm ▸ hfit)]
  exact ⟨_, rfl⟩

/-- A line, read at once into an empty buffer. -/
theorem framed_iff_hi : ∃ t, Machine.run processUserInput (start [104, 105, 10]) [3] = some t ∧
    t.Framed := by
  have hfits : Fits [104, 105, 10] := ⟨by decide, by decide⟩
  obtain ⟨t, ht⟩ := (sound_start hfits).exists_step (n := 3) (Nat.le_refl 3) (by decide)
  have hrun := Machine.run_single ht
  have hclean : Clean (start [104, 105, 10]) 3 := by
    show 10 ∉ Stdio.cString ((List.replicate (userbufSize + 1) 0).drop (0 + 3))
    rw [List.drop_replicate]
    exact List.not_mem_nil
  exact ⟨t, hrun, (framed_iff hfits hrun).mpr ⟨hclean, fun _ _ ↦ Machine.along_nil⟩ [3]
    (List.prefix_refl _) t hrun⟩

/-- A line of one byte and one of 8188 bytes fill the buffer. -/
structure FillsBuffer (line : List UInt8) : Prop where
  length_eq : line.length = 8188
  noNul : 0 ∉ line
  noNewline : 10 ∉ line

theorem fillsBuffer_replicate : FillsBuffer (List.replicate 8188 98) :=
  ⟨List.length_replicate, fun h ↦ absurd (List.eq_of_mem_replicate h) (by decide),
    fun h ↦ absurd (List.eq_of_mem_replicate h) (by decide)⟩

/-- The two lines. -/
def fullInput (line : List UInt8) : List UInt8 := [97] ++ 10 :: (line ++ [10])

variable {line : List UInt8}

theorem length_fullInput (h : FillsBuffer line) : (fullInput line).length = userbufSize := by
  simp only [fullInput, List.length_append, List.length_cons, List.length_nil, h.length_eq]
  rfl

theorem splitLines_fullInput (h : FillsBuffer line) :
    Stdio.splitLines (fullInput line) = ([[97], line], []) := by
  rw [fullInput, Stdio.splitLines_append (by decide), Stdio.splitLines_append h.noNewline]
  rfl

/-- The beginning of a third line behind them. -/
theorem fits_overread (h : FillsBuffer line) : Fits (fullInput line ++ [120]) := by
  refine ⟨?_, ?_⟩
  · have h0 := h.noNul
    simp [fullInput, h0]
  · intro l hl
    rw [Stdio.splitLines_append_rest, splitLines_fullInput h] at hl
    have hcases : l = [97] ∨ l = line ∨ l = [120] := by
      simpa [Stdio.splitLines] using hl
    rcases hcases with rfl | rfl | rfl
    · decide
    · rw [h.length_eq]
      decide
    · decide

/-- When the two lines have been handed over, a newline stands behind the first byte of the
buffer. -/
theorem buf_processLines_fullInput (h : FillsBuffer line) {b : UserIobuf}
    (hbuf : b.buf = fullInput line ++ [0]) : ∃ t, b.processLines.2.buf = 0 :: 10 :: 0 :: t := by
  have hfirst : b.buf = [97] ++ 10 :: (line ++ [10, 0]) := by
    rw [hbuf, fullInput]
    simp
  have hsecond : (b.shift 1).buf = line ++ 10 :: [0, 10, 0] := by
    have hdrop : ([97] ++ 0 :: (line ++ [10, 0])).drop (line ++ [10, 0]).length = [10, 0] := by
      rw [List.length_append, List.singleton_append]
      exact List.drop_left
    have hshift := UserIobuf.buf_shift hfirst
    rw [hdrop, List.append_assoc] at hshift
    exact hshift
  have hthird := UserIobuf.buf_shift hsecond
  have hnone : 10 ∉ Stdio.cString ((b.shift 1).shift line.length).buf := by
    rw [hthird]
    exact List.not_mem_nil
  rw [UserIobuf.processLines_of_eq hfirst (by decide) (by decide)]
  show ∃ t, (b.shift 1).processLines.2.buf = _
  rw [UserIobuf.processLines_of_eq hsecond h.noNul h.noNewline,
    UserIobuf.processLines_of_notMem hnone]
  exact ⟨_, hthird⟩

/-- The two lines are read at once, then the beginning of the third: it is handed over with
an old newline behind it. -/
theorem not_framed : ¬ ∀ (stream : List UInt8) (counts : List Nat) (t : Session), Fits stream →
    Machine.run processUserInput (start stream) counts = some t → t.Framed := by
  intro h
  have hline := fillsBuffer_replicate
  generalize List.replicate 8188 (98 : UInt8) = line at hline
  have hlen := length_fullInput hline
  have htake : (fullInput line ++ [120]).take userbufSize = fullInput line := List.take_left' hlen
  have hstart := sound_start (fits_overread hline)
  obtain ⟨s₁, hstep₁⟩ := hstart.exists_step (n := userbufSize)
    (by
      show userbufSize ≤ (fullInput line ++ [120]).length
      rw [List.length_append, hlen]
      exact Nat.le_add_right _ _)
    (Nat.le_of_eq (Nat.zero_add _))
  have hzeros : (start (fullInput line ++ [120])).userbuf.buf.drop
      ((start (fullInput line ++ [120])).userbuf.cur.toNat + userbufSize) = [0] := by
    show (List.replicate (userbufSize + 1) 0).drop (0 + userbufSize) = _
    rw [List.drop_replicate, Nat.zero_add, Nat.add_sub_cancel_left]
    rfl
  have hclean : (start (fullInput line ++ [120])).Clean userbufSize := by
    rw [Clean, hzeros]
    exact List.not_mem_nil
  have hsound := hstart.step hclean hstep₁
  -- nothing is left of the input, and a newline is left in the buffer
  obtain ⟨b, rfl, hbuf, -⟩ := hstart.step_cases hstep₁
  rw [hzeros] at hbuf
  obtain ⟨t, ht⟩ := buf_processLines_fullInput hline (hbuf.trans (congrArg (· ++ [0]) htake))
  have hcur : b.processLines.2.cur.toNat = 0 := by
    have hframed := hsound.framed.cur
    simp only [start, List.nil_append, htake, splitLines_fullInput hline] at hframed
    exact hframed
  obtain ⟨s₂, hstep₂⟩ := hsound.exists_step (n := 1)
    (by
      show 1 ≤ ((fullInput line ++ [120]).drop userbufSize).length
      rw [List.drop_left' hlen]
      exact Nat.le_refl 1)
    (by
      show b.processLines.2.cur.toNat + 1 ≤ _
      rw [hcur]
      decide)
  have hrun : Machine.run processUserInput (start (fullInput line ++ [120])) [userbufSize, 1] =
      some s₂ := Machine.run_cons_eq_some.mpr ⟨_, hstep₁, Machine.run_single hstep₂⟩
  have hframed₂ := h _ _ s₂ (fits_overread hline) hrun
  apply hsound.clean_of_framed hstep₂ hframed₂
  show 10 ∈ Stdio.cString (b.processLines.2.buf.drop (b.processLines.2.cur.toNat + 1))
  rw [hcur, ht]
  exact List.mem_singleton_self 10

end Session

end BitTorrent
