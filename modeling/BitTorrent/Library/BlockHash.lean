import Mathlib.Data.List.Basic
import Mathlib.Data.List.Induction

/-!
# Hashing block by block

A hash that works through its input in blocks keeps a chaining value and the
entries of a block that is not full yet.  `absorb` feeds it one entry after
the other, so that cutting the input into pieces is nothing but `foldl_append`;
the lemmas below say what that does to a whole block.

Two inputs with the same result show a `Collision` among the calls of the
compression function that were made for them, as soon as the padding writes the
length of the input into its last block.  No assumption about the compression
function is made anywhere: a collision is what the theorems conclude with.
-/

universe u v

namespace BlockHash

variable {σ : Type u} {β : Type v}

/-- A hash in progress. -/
@[ext]
structure Absorbing (σ : Type u) (β : Type v) where
  /-- The chaining value after the full blocks. -/
  state : σ
  /-- The entries of the block that is not full. -/
  pending : List β

variable (compress : σ → List β → σ) (size : Nat)

/-- Take in one entry; a block that gets full is compressed. -/
def feed (a : Absorbing σ β) (b : β) : Absorbing σ β :=
  if a.pending.length + 1 = size then ⟨compress a.state (a.pending ++ [b]), []⟩
  else ⟨a.state, a.pending ++ [b]⟩

/-- Take in a piece of the input. -/
def absorb (a : Absorbing σ β) (bs : List β) : Absorbing σ β := bs.foldl (feed compress size) a

variable {compress size} {a : Absorbing σ β} {bs : List β}

@[simp] theorem absorb_nil : absorb compress size a [] = a := rfl

/-- The input may come in pieces. -/
theorem absorb_append (bs bs' : List β) :
    absorb compress size a (bs ++ bs') = absorb compress size (absorb compress size a bs) bs' :=
  List.foldl_append

/-- Entries that do not fill the block are kept. -/
theorem absorb_of_lt (h : a.pending.length + bs.length < size) :
    absorb compress size a bs = ⟨a.state, a.pending ++ bs⟩ := by
  induction bs using List.reverseRecOn with
  | nil => rw [absorb_nil, List.append_nil]
  | append_singleton bs b ih =>
      rw [List.length_append, List.length_singleton, ← Nat.add_assoc] at h
      have hfeed : a.pending.length + bs.length + 1 ≠ size := Nat.ne_of_lt h
      rw [absorb_append, ih (Nat.lt_of_succ_lt h), absorb, List.foldl_cons, List.foldl_nil, feed,
        List.length_append, if_neg hfeed, List.append_assoc]

/-- Entries that fill the block have it compressed. -/
theorem absorb_of_eq (hne : bs ≠ []) (h : a.pending.length + bs.length = size) :
    absorb compress size a bs = ⟨compress a.state (a.pending ++ bs), []⟩ := by
  cases bs using List.reverseRecOn with
  | nil => exact absurd rfl hne
  | append_singleton bs b =>
      rw [List.length_append, List.length_singleton, ← Nat.add_assoc] at h
      rw [absorb_append, absorb_of_lt (Nat.lt_of_succ_le (Nat.le_of_eq h)), absorb, List.foldl_cons,
        List.foldl_nil, feed, List.length_append, if_pos h, List.append_assoc]

/-- What is pending is what is left after the full blocks. -/
theorem length_pending_absorb (h : a.pending.length < size) :
    (absorb compress size a bs).pending.length = (a.pending.length + bs.length) % size := by
  induction bs using List.reverseRecOn with
  | nil => rw [absorb_nil, List.length_nil, Nat.add_zero, Nat.mod_eq_of_lt h]
  | append_singleton bs b ih =>
      have hpos : 0 < size := Nat.lt_of_le_of_lt (Nat.zero_le _) h
      have hlt := Nat.mod_lt (a.pending.length + bs.length) hpos
      have hstep := Nat.mod_add_mod (a.pending.length + bs.length) size 1
      rw [absorb_append, absorb, List.foldl_cons, List.foldl_nil, feed, List.length_append,
        List.length_singleton, ← Nat.add_assoc, ih, ← hstep]
      split
      · next hfull => rw [List.length_nil, hfull, Nat.mod_self]
      · next hfull =>
        rw [List.length_append, List.length_singleton, ih,
          Nat.mod_eq_of_lt (Nat.lt_of_le_of_ne hlt hfull)]

/-! ## Whole blocks -/

/-- The first `k` blocks of a list. -/
def blocks (size : Nat) : Nat → List β → List (List β)
  | 0, _ => []
  | k + 1, bs => bs.take size :: blocks size k (bs.drop size)

@[simp] theorem length_blocks (k : Nat) (bs : List β) : (blocks size k bs).length = k := by
  induction k generalizing bs with
  | zero => rfl
  | succ k ih => rw [blocks, List.length_cons, ih]

variable {k : Nat}

theorem length_of_mem_blocks (h : bs.length = k * size) {b : List β} (hb : b ∈ blocks size k bs) :
    b.length = size := by
  induction k generalizing bs with
  | zero => cases hb
  | succ k ih =>
      rw [Nat.succ_mul] at h
      rcases List.mem_cons.mp hb with rfl | hb
      · exact List.length_take_of_le (Nat.le.intro (Nat.add_comm .. ▸ h.symm))
      · exact ih (by rw [List.length_drop, h, Nat.add_sub_cancel]) hb

theorem flatten_blocks (h : bs.length = k * size) : (blocks size k bs).flatten = bs := by
  induction k generalizing bs with
  | zero =>
      rw [Nat.zero_mul] at h
      rw [List.eq_nil_of_length_eq_zero h]
      rfl
  | succ k ih =>
      rw [Nat.succ_mul] at h
      rw [blocks, List.flatten_cons, ih (by rw [List.length_drop, h, Nat.add_sub_cancel]),
        List.take_append_drop]

/-- Absorbing whole blocks compresses them one after the other. -/
theorem absorb_flatten (hsize : 0 < size) {l : List (List β)} (hl : ∀ b ∈ l, b.length = size)
    (s : σ) : absorb compress size ⟨s, []⟩ l.flatten = ⟨l.foldl compress s, []⟩ := by
  induction l generalizing s with
  | nil => rfl
  | cons b l ih =>
      obtain ⟨hb, hl⟩ := List.forall_mem_cons.mp hl
      have hne : b ≠ [] := by
        rintro rfl
        exact absurd hb (Nat.ne_of_lt hsize)
      rw [List.flatten_cons, absorb_append,
        absorb_of_eq hne (by rw [List.length_nil, Nat.zero_add, hb]), ih hl]
      rfl

/-! ## The calls of the compression function -/

section Calls

variable (compress : σ → List β → σ)

/-- The arguments of the compression function on the way through some blocks. -/
def calls : σ → List (List β) → List (σ × List β)
  | _, [] => []
  | s, b :: l => (s, b) :: calls (compress s b) l

/-- The arguments of the compression function while a piece of the input is taken in. -/
def absorbCalls (size : Nat) : Absorbing σ β → List β → List (σ × List β)
  | _, [] => []
  | a, b :: bs =>
      if a.pending.length + 1 = size then
        (a.state, a.pending ++ [b]) :: absorbCalls size (feed compress size a b) bs
      else absorbCalls size (feed compress size a b) bs

variable {compress} {s : σ} {l l' : List (List β)}

theorem calls_append :
    calls compress s (l ++ l') = calls compress s l ++ calls compress (l.foldl compress s) l' := by
  induction l generalizing s with
  | nil => rfl
  | cons b l ih => rw [List.cons_append, calls, calls, ih, List.cons_append, List.foldl_cons]

theorem mem_of_mem_calls {x : σ × List β} (hx : x ∈ calls compress s l) : x.2 ∈ l := by
  induction l generalizing s with
  | nil => cases hx
  | cons b l ih =>
      rcases List.mem_cons.mp hx with rfl | hx
      · exact List.mem_cons_self ..
      · exact List.mem_cons_of_mem b (ih hx)

theorem absorbCalls_append (bs bs' : List β) :
    absorbCalls compress size a (bs ++ bs') =
      absorbCalls compress size a bs ++
        absorbCalls compress size (absorb compress size a bs) bs' := by
  induction bs generalizing a with
  | nil => rfl
  | cons b bs ih =>
      rw [List.cons_append, absorbCalls, absorbCalls, ih]
      split <;> rfl

/-- Entries that do not fill the block call nothing. -/
theorem absorbCalls_of_lt (h : a.pending.length + bs.length < size) :
    absorbCalls compress size a bs = [] := by
  induction bs generalizing a with
  | nil => rfl
  | cons b bs ih =>
      rw [List.length_cons] at h
      have hfeed : a.pending.length + 1 ≠ size := by omega
      rw [absorbCalls, if_neg hfeed, feed, if_neg hfeed, ih]
      rw [List.length_append, List.length_singleton]
      omega

/-- Entries that fill the block call it once. -/
theorem absorbCalls_of_eq (hne : bs ≠ []) (h : a.pending.length + bs.length = size) :
    absorbCalls compress size a bs = [(a.state, a.pending ++ bs)] := by
  cases bs using List.reverseRecOn with
  | nil => exact absurd rfl hne
  | append_singleton bs b =>
      rw [List.length_append, List.length_singleton, ← Nat.add_assoc] at h
      have hlt : a.pending.length + bs.length < size := Nat.lt_of_succ_le (Nat.le_of_eq h)
      rw [absorbCalls_append, absorbCalls_of_lt hlt, absorb_of_lt hlt, List.nil_append, absorbCalls,
        List.length_append, if_pos h, absorbCalls, List.append_assoc]

/-- While whole blocks are taken in, the calls are theirs. -/
theorem absorbCalls_flatten (hsize : 0 < size) (hl : ∀ b ∈ l, b.length = size) (s : σ) :
    absorbCalls compress size ⟨s, []⟩ l.flatten = calls compress s l := by
  induction l generalizing s with
  | nil => rfl
  | cons b l ih =>
      obtain ⟨hb, hl⟩ := List.forall_mem_cons.mp hl
      have hne : b ≠ [] := by
        rintro rfl
        exact absurd hb (Nat.ne_of_lt hsize)
      have hfull : ([] : List β).length + b.length = size := by
        rw [List.length_nil, Nat.zero_add, hb]
      rw [List.flatten_cons, absorbCalls_append, absorbCalls_of_eq hne hfull,
        absorb_of_eq hne hfull, List.nil_append, ih hl]
      rfl

end Calls

/-! ## Collisions -/

section Collisions

variable (compress : σ → List β → σ)

/-- One of the first calls and one of the second have different arguments and the same
value. -/
def Collision (xs xs' : List (σ × List β)) : Prop :=
  ∃ x ∈ xs, ∃ x' ∈ xs', x ≠ x' ∧ compress x.1 x.2 = compress x'.1 x'.2

variable {compress} {s s' : σ} {l l' : List (List β)}

/-- With more calls there is no less of a collision. -/
theorem Collision.mono {xs ys xs' ys' : List (σ × List β)} (h : Collision compress xs xs')
    (hsub : xs ⊆ ys) (hsub' : xs' ⊆ ys') : Collision compress ys ys' := by
  obtain ⟨x, hx, x', hx', hne, heq⟩ := h
  exact ⟨x, hsub hx, x', hsub' hx', hne, heq⟩

/-- Two last calls with different arguments and the same value. -/
theorem collision_of_last {b b' : List β}
    (hne : (l.foldl compress s, b) ≠ (l'.foldl compress s', b'))
    (h : (l ++ [b]).foldl compress s = (l' ++ [b']).foldl compress s') :
    Collision compress (calls compress s (l ++ [b])) (calls compress s' (l' ++ [b'])) := by
  rw [List.foldl_append, List.foldl_append] at h
  refine ⟨_, ?_, _, ?_, hne, h⟩
  · rw [calls_append]
    exact List.mem_append_right _ (List.mem_singleton_self _)
  · rw [calls_append]
    exact List.mem_append_right _ (List.mem_singleton_self _)

/-- Equally many blocks with the same result are the same blocks, or there is a collision.
By induction from the last block: the two runs agree behind it. -/
theorem eq_or_collision (hlen : l.length = l'.length)
    (h : l.foldl compress s = l'.foldl compress s') :
    (s = s' ∧ l = l') ∨ Collision compress (calls compress s l) (calls compress s' l') := by
  induction l using List.reverseRecOn generalizing l' with
  | nil =>
      cases List.eq_nil_of_length_eq_zero hlen.symm
      exact .inl ⟨h, rfl⟩
  | append_singleton l b ih =>
      cases l' using List.reverseRecOn with
      | nil => simp at hlen
      | append_singleton l' b' =>
          simp only [List.length_append, List.length_singleton, Nat.add_right_cancel_iff] at hlen
          by_cases heq : (l.foldl compress s, b) = (l'.foldl compress s', b')
          · obtain ⟨hstate, rfl⟩ := Prod.mk.inj heq
            rcases ih hlen hstate with ⟨hs, rfl⟩ | hcol
            · exact .inl ⟨hs, rfl⟩
            · rw [calls_append, calls_append]
              exact .inr (hcol.mono (List.subset_append_left ..) (List.subset_append_left ..))
          · exact .inr (collision_of_last heq h)

/-- Messages of blocks with the same result, whose last blocks tell how many blocks
there are, are the same message, or there is a collision. -/
theorem eq_or_collision_of_last (hne : l ≠ []) (hne' : l' ≠ [])
    (hlast : l.getLast hne = l'.getLast hne' → l.length = l'.length)
    (h : l.foldl compress s = l'.foldl compress s) :
    l = l' ∨ Collision compress (calls compress s l) (calls compress s l') := by
  by_cases heq : l.getLast hne = l'.getLast hne'
  · exact (eq_or_collision (hlast heq) h).imp_left And.right
  · have hpair : (l.dropLast.foldl compress s, l.getLast hne) ≠
        (l'.dropLast.foldl compress s, l'.getLast hne') := fun hpair ↦ heq (Prod.mk.inj hpair).2
    have hcol := collision_of_last hpair (by
      rw [List.dropLast_append_getLast, List.dropLast_append_getLast]
      exact h)
    rw [List.dropLast_append_getLast, List.dropLast_append_getLast] at hcol
    exact .inr hcol

end Collisions

end BlockHash
