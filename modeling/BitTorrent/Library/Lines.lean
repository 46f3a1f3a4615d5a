import Mathlib.Algebra.Order.Group.Nat
import Mathlib.Algebra.Order.BigOperators.Group.List
import BitTorrent.Library.Stdio

/-!
# Lines of a text

A text is a sequence of lines that end with a newline, and what stands behind the last newline.
`fgets` with a buffer of `size` bytes reads each line by itself, in pieces if it does not fit:
the loop over `fgets` sees the lines of the text exactly if every one of them fits.
-/

namespace Stdio

variable {size n : Nat} {body s line rest : List UInt8}

/-- The lines of a text that end with a newline, without it, and what stands behind them. -/
def splitLines : List UInt8 → List (List UInt8) × List UInt8
  | [] => ([], [])
  | c :: s =>
      let (lines, tail) := splitLines s
      if c = 10 then ([] :: lines, tail)
      else
        match lines with
        | [] => ([], c :: tail)
        | line :: lines => ((c :: line) :: lines, tail)

/-- The lines of a text as they stand there: each with its newline, but for the last one if
the text does not end with one. -/
def textLines (s : List UInt8) : List (List UInt8) :=
  let (lines, tail) := splitLines s
  lines.map (· ++ [10]) ++ if tail = [] then [] else [tail]

/-! ## Splitting a text -/

/-- A text is what stands in front of the first newline, and then a text again. -/
@[elab_as_elim] theorem line_induction {P : List UInt8 → Prop} (htail : ∀ tail, 10 ∉ tail → P tail)
    (hline : ∀ body s, 10 ∉ body → P s → P (body ++ 10 :: s)) (s : List UInt8) : P s := by
  suffices hboth : ∀ body, 10 ∉ body → P (body ++ s) from hboth [] List.not_mem_nil
  induction s with
  | nil =>
      intro body hbody
      rw [List.append_nil]
      exact htail body hbody
  | cons c s ih =>
      intro body hbody
      by_cases hc : c = 10
      · subst hc
        exact hline body s hbody (ih [] List.not_mem_nil)
      · have hcons : 10 ∉ body ++ [c] := by
          rw [List.mem_append, List.mem_singleton]
          rintro (h | h)
          · exact hbody h
          · exact hc h.symm
        have h := ih (body ++ [c]) hcons
        rw [List.append_assoc] at h
        exact h

/-- Without a newline there is no line that ends. -/
theorem splitLines_of_notMem (h : 10 ∉ s) : splitLines s = ([], s) := by
  induction s with
  | nil => rfl
  | cons c s ih =>
      obtain ⟨hc, hs⟩ := List.ne_and_not_mem_of_not_mem_cons h
      rw [splitLines, ih hs]
      exact if_neg (Ne.symm hc)

/-- The first line, and the others. -/
theorem splitLines_append (h : 10 ∉ body) (s : List UInt8) :
    splitLines (body ++ 10 :: s) = (body :: (splitLines s).1, (splitLines s).2) := by
  induction body with
  | nil => rfl
  | cons c body ih =>
      obtain ⟨hc, hbody⟩ := List.ne_and_not_mem_of_not_mem_cons h
      rw [List.cons_append, splitLines, ih hbody]
      exact if_neg (Ne.symm hc)

/-- The lines and the rest make up the text. -/
theorem flatMap_splitLines (s : List UInt8) :
    (splitLines s).1.flatMap (· ++ [10]) ++ (splitLines s).2 = s := by
  induction s using line_induction with
  | htail tail h => rw [splitLines_of_notMem h, List.flatMap_nil, List.nil_append]
  | hline body s h ih =>
      rw [splitLines_append h, List.flatMap_cons, List.append_assoc, ih, List.append_assoc,
        List.singleton_append]

/-- None of them has a newline in it. -/
theorem notMem_of_splitLines (s : List UInt8) :
    (∀ line ∈ (splitLines s).1, 10 ∉ line) ∧ 10 ∉ (splitLines s).2 := by
  induction s using line_induction with
  | htail tail h =>
      rw [splitLines_of_notMem h]
      exact ⟨fun line hline ↦ absurd hline List.not_mem_nil, h⟩
  | hline body s h ih =>
      rw [splitLines_append h]
      exact ⟨List.forall_mem_cons.mpr ⟨h, ih.1⟩, ih.2⟩

/-- With more of the text at hand the unfinished line goes on. -/
theorem splitLines_append_rest (s t : List UInt8) :
    splitLines (s ++ t) = ((splitLines s).1 ++ (splitLines ((splitLines s).2 ++ t)).1,
      (splitLines ((splitLines s).2 ++ t)).2) := by
  induction s using line_induction with
  | htail tail h =>
      rw [splitLines_of_notMem h]
      rfl
  | hline body s h ih =>
      rw [List.append_assoc, List.cons_append, splitLines_append h, ih, splitLines_append h]
      rfl

/-- It is the beginning of a line of the whole text. -/
theorem exists_line_of_append (h : 10 ∉ line) (s : List UInt8) :
    ∃ l ∈ (splitLines (line ++ s)).1 ++ [(splitLines (line ++ s)).2], line <+: l := by
  induction s using line_induction with
  | htail tail htail =>
      rw [splitLines_of_notMem fun hmem ↦ (List.mem_append.mp hmem).elim h htail]
      exact ⟨line ++ tail, List.mem_singleton_self _, List.prefix_append _ _⟩
  | hline body s hbody _ =>
      rw [← List.append_assoc, splitLines_append fun hmem ↦ (List.mem_append.mp hmem).elim h hbody]
      exact ⟨line ++ body, List.mem_cons_self .., List.prefix_append _ _⟩

theorem textLines_of_notMem (h : 10 ∉ s) : textLines s = if s = [] then [] else [s] := by
  rw [textLines, splitLines_of_notMem h]
  rfl

theorem textLines_append (h : 10 ∉ body) (s : List UInt8) :
    textLines (body ++ 10 :: s) = (body ++ [10]) :: textLines s := by
  rw [textLines, splitLines_append h]
  rfl

/-- A line has at most one newline, at its end. -/
theorem exists_body_of_mem (h : line ∈ textLines s) :
    ∃ body, 10 ∉ body ∧ (line = body ++ [10] ∨ line = body ∧ body ≠ []) := by
  induction s using line_induction with
  | htail tail hs =>
      rw [textLines_of_notMem hs] at h
      split at h
      · exact absurd h List.not_mem_nil
      · next hne => exact ⟨tail, hs, .inr ⟨List.mem_singleton.mp h, hne⟩⟩
  | hline body s hbody ih =>
      rw [textLines_append hbody] at h
      rcases List.mem_cons.mp h with rfl | h
      · exact ⟨body, hbody, .inl rfl⟩
      · exact ih h

theorem ne_nil_of_mem_textLines (h : line ∈ textLines s) : line ≠ [] := by
  obtain ⟨body, -, rfl | ⟨rfl, hne⟩⟩ := exists_body_of_mem h
  · exact List.append_ne_nil_of_right_ne_nil _ (List.cons_ne_nil _ _)
  · exact hne

/-- Texts without a newline, printed one a line. -/
theorem textLines_flatMap {α : Type} {l : List α} {f : α → List UInt8} (h : ∀ x ∈ l, 10 ∉ f x) :
    textLines (l.flatMap fun x ↦ f x ++ [10]) = l.map fun x ↦ f x ++ [10] := by
  induction l with
  | nil => rfl
  | cons x l ih =>
      obtain ⟨hx, hl⟩ := List.forall_mem_cons.mp h
      rw [List.flatMap_cons, List.append_assoc, List.singleton_append, textLines_append hx, ih hl,
        List.map_cons]

/-! ## What `fgets` reads -/

/-- In front of a newline `fgets` takes the line if it fits, and else the part that does. -/
theorem takeLine_append_newline (h : 10 ∉ body) (n : Nat) (s : List UInt8) :
    takeLine n (body ++ 10 :: s) =
      if body.length < n then (body ++ [10], s) else (body.take n, body.drop n ++ 10 :: s) := by
  induction body generalizing n with
  | nil =>
      cases n with
      | zero => rfl
      | succ n => rfl
  | cons c body ih =>
      obtain ⟨hc, hbody⟩ := List.ne_and_not_mem_of_not_mem_cons h
      cases n with
      | zero => rfl
      | succ n =>
          rw [List.cons_append, takeLine, if_neg (Ne.symm hc), ih hbody, List.length_cons]
          by_cases hlt : body.length < n
          · rw [if_pos hlt, if_pos (Nat.succ_lt_succ hlt)]
            rfl
          · rw [if_neg hlt, if_neg (fun h ↦ hlt (Nat.lt_of_succ_lt_succ h))]
            rfl

theorem takeLine_of_notMem (h : 10 ∉ s) (n : Nat) : takeLine n s = (s.take n, s.drop n) := by
  induction s generalizing n with
  | nil => cases n <;> rfl
  | cons c s ih =>
      obtain ⟨hc, hs⟩ := List.ne_and_not_mem_of_not_mem_cons h
      cases n with
      | zero => rfl
      | succ n =>
          rw [takeLine, if_neg (Ne.symm hc), ih hs]
          rfl

/-- So does a call with a buffer of `size` bytes. -/
theorem fgets_append_newline (h : 10 ∉ body) (size : Nat) (s : List UInt8) :
    fgets size (body ++ 10 :: s) =
      some (if body.length < size - 1 then (body ++ [10], s)
        else (body.take (size - 1), body.drop (size - 1) ++ 10 :: s)) := by
  have hne : body ++ 10 :: s ≠ [] := by simp
  rw [fgets, if_neg hne, takeLine_append_newline h]

/-- The loop over the stream, with the call of `fgets` made. -/
theorem lines_of_ne_nil (hsize : 2 ≤ size) (h : s ≠ []) :
    lines size s = (takeLine (size - 1) s).1 :: lines size (takeLine (size - 1) s).2 := by
  rw [lines_eq hsize, fgets, if_neg h]

theorem lines_nil (size : Nat) : lines size [] = [] := rfl

/-- `fgets` never reads beyond the end of a line. -/
theorem lines_append (hsize : 2 ≤ size) (h : 10 ∉ body) (s : List UInt8) :
    lines size (body ++ 10 :: s) = lines size (body ++ [10]) ++ lines size s := by
  induction hn : body.length using Nat.strongRecOn generalizing body with
  | ind n ih =>
      have hne : ∀ t, body ++ 10 :: t ≠ [] := fun t ↦ by simp
      rw [lines_of_ne_nil hsize (hne s), lines_of_ne_nil hsize (hne []),
        takeLine_append_newline h, takeLine_append_newline h]
      by_cases hfits : body.length < size - 1
      · rw [if_pos hfits, if_pos hfits, lines_nil]
        rfl
      · rw [if_neg hfits, if_neg hfits]
        have hrest : 10 ∉ body.drop (size - 1) := fun hmem ↦ h (List.mem_of_mem_drop hmem)
        have hlt : (body.drop (size - 1)).length < n := by
          rw [List.length_drop, ← hn]
          omega
        simp only [List.cons_append]
        rw [ih _ hlt hrest rfl]

/-- So it reads each line as it would read it by itself. -/
theorem lines_eq_flatMap (hsize : 2 ≤ size) (s : List UInt8) :
    lines size s = (textLines s).flatMap (lines size) := by
  induction s using line_induction with
  | htail tail h =>
      rw [textLines_of_notMem h]
      split
      · next hnil => rw [hnil, lines_nil, List.flatMap_nil]
      · rw [List.flatMap_singleton]
  | hline body s h ih => rw [textLines_append h, List.flatMap_cons, lines_append hsize h, ih]

/-- From a line by itself `fgets` takes as much as fits. -/
theorem takeLine_of_mem (h : line ∈ textLines s) (n : Nat) :
    takeLine n line = (line.take n, line.drop n) := by
  obtain ⟨body, hbody, rfl | ⟨rfl, -⟩⟩ := exists_body_of_mem h
  · rw [takeLine_append_newline hbody]
    split
    · next hlt =>
        have hle : (body ++ [10]).length ≤ n := by
          rw [List.length_append]
          exact hlt
        rw [List.take_of_length_le hle, List.drop_of_length_le hle]
    · next hge =>
        have hle : n ≤ body.length := Nat.le_of_not_lt hge
        rw [List.take_append_of_le_length hle, List.drop_append_of_le_length hle]
  · exact takeLine_of_notMem hbody n

/-- A line that fits is read at once. -/
theorem lines_of_length_lt (hsize : 2 ≤ size) (h : line ∈ textLines s) (hlt : line.length < size) :
    lines size line = [line] := by
  have hle : line.length ≤ size - 1 := Nat.le_sub_one_of_lt hlt
  rw [lines_of_ne_nil hsize (ne_nil_of_mem_textLines h), takeLine_of_mem h,
    List.take_of_length_le hle, List.drop_of_length_le hle, lines_nil]

/-- Another one takes two calls or more. -/
theorem two_le_length_lines (hsize : 2 ≤ size) (h : line ∈ textLines s) (hle : size ≤ line.length) :
    2 ≤ (lines size line).length := by
  have hrest : line.drop (size - 1) ≠ [] := by
    rw [ne_eq, List.drop_eq_nil_iff]
    omega
  rw [lines_of_ne_nil hsize (ne_nil_of_mem_textLines h), takeLine_of_mem h,
    lines_of_ne_nil hsize hrest, List.length_cons, List.length_cons]
  omega

theorem length_lines_pos (hsize : 2 ≤ size) (h : line ∈ textLines s) :
    0 < (lines size line).length := by
  rw [lines_of_ne_nil hsize (ne_nil_of_mem_textLines h)]
  exact Nat.succ_pos _

/-- There are at least as many pieces as lines, and more of them if a line does not fit. -/
theorem length_textLines_le (hsize : 2 ≤ size) (s : List UInt8) :
    (textLines s).length ≤ (lines size s).length ∧
      ((lines size s).length = (textLines s).length →
        ∀ line ∈ textLines s, line.length < size) := by
  have hsum : (lines size s).length = ((textLines s).map fun l ↦ (lines size l).length).sum := by
    rw [lines_eq_flatMap hsize, List.length_flatMap]
  have hpos : ∀ l ∈ textLines s, 1 ≤ (lines size l).length := fun l hl ↦ length_lines_pos hsize hl
  have hone : (textLines s).length = ((textLines s).map fun _ ↦ 1).sum := by simp
  constructor
  · rw [hsum, hone]
    exact List.sum_le_sum hpos
  · intro heq line hline
    by_contra hlong
    refine absurd heq (Nat.ne_of_gt ?_)
    rw [hsum, hone]
    exact List.sum_lt_sum _ _ hpos
      ⟨line, hline, two_le_length_lines hsize hline (Nat.le_of_not_lt hlong)⟩

/-- If every line fits, the loop sees the lines of the text. -/
theorem lines_eq_textLines (hsize : 2 ≤ size) (h : ∀ line ∈ textLines s, line.length < size) :
    lines size s = textLines s := by
  rw [lines_eq_flatMap hsize]
  calc (textLines s).flatMap (lines size)
      = (textLines s).flatMap fun line ↦ [line] :=
        List.flatMap_congr fun line hline ↦ lines_of_length_lt hsize hline (h line hline)
    _ = textLines s := List.flatMap_singleton' _

end Stdio
