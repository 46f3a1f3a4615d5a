import BitTorrent.Library.Keyed
import BitTorrent.RcvSend

/-!
# What the pools hold

A pool is a queue searched from its front, with the number of its workers kept
beside it.  As long as that number is right, `remove_sender` and
`remove_receiver` drop the first worker of their peer and rotate the queue; and
as long as no two receivers have the same peer, the receiver pool is a finite map
from peers to receivers.
-/

namespace BitTorrent

namespace Pool

variable {α : Type} {serves : α → Bool} {pool : Pool α} {w : α}

/-- The number kept beside the queue is its length. -/
def Counts (pool : Pool α) : Prop := pool.curNum = pool.workers.length

theorem counts_init (max : Int) : (Pool.init max : Pool α).Counts := rfl

theorem Counts.add (h : pool.Counts) {pool' : Pool α} (hadd : pool.add w = some pool') :
    pool'.Counts ∧ pool'.workers = pool.workers ++ [w] := by
  rw [Pool.add] at hadd
  split at hadd
  · cases hadd
  · cases hadd
    refine ⟨?_, rfl⟩
    show pool.curNum + 1 = ((pool.workers ++ [w]).length : Int)
    rw [h, List.length_append, List.length_singleton]
    push_cast
    rfl

/-- The loop drops the worker it looks for and puts the ones before it at the end. -/
theorem removeLoop_append {pre post : List α} {n : Nat} (hpre : ∀ x ∈ pre, serves x = false)
    (hw : serves w = true) (hn : pre.length < n) :
    removeLoop serves n (pre ++ w :: post) = (post ++ pre, true) := by
  induction pre generalizing post n with
  | nil =>
      obtain ⟨m, rfl⟩ := Nat.exists_eq_succ_of_ne_zero (Nat.ne_of_gt hn)
      rw [List.nil_append, removeLoop, if_pos hw, List.append_nil]
  | cons x pre ih =>
      obtain ⟨m, rfl⟩ := Nat.exists_eq_succ_of_ne_zero (Nat.ne_of_gt (Nat.zero_lt_of_lt hn))
      have hx : ¬ serves x = true := by rw [hpre x (List.mem_cons_self ..)]; exact Bool.false_ne_true
      rw [List.cons_append, removeLoop, if_neg hx, List.append_assoc, List.cons_append,
        ih (fun y hy ↦ hpre y (List.mem_cons_of_mem _ hy)) (Nat.lt_of_succ_lt_succ hn),
        List.append_assoc]
      rfl

/-- Without such a worker the loop only turns the queue. -/
theorem removeLoop_rotate {pre post : List α} (hpre : ∀ x ∈ pre, serves x = false) :
    removeLoop serves pre.length (pre ++ post) = (post ++ pre, false) := by
  induction pre generalizing post with
  | nil => rw [List.nil_append, List.append_nil]; rfl
  | cons x pre ih =>
      have hx : ¬ serves x = true := by rw [hpre x (List.mem_cons_self ..)]; exact Bool.false_ne_true
      rw [List.length_cons, List.cons_append, removeLoop, if_neg hx, List.append_assoc,
        ih (fun y hy ↦ hpre y (List.mem_cons_of_mem _ hy)), List.append_assoc]
      rfl

/-- Removing a worker that is there. -/
theorem Counts.remove_of_get (h : pool.Counts) (hget : pool.get serves = some w) :
    ∃ pre post, pool.workers = pre ++ w :: post ∧ (∀ x ∈ pre, serves x = false) ∧ serves w = true ∧
      pool.remove serves = { pool with curNum := pool.curNum - 1, workers := post ++ pre } := by
  obtain ⟨hw, pre, post, heq, hpre⟩ := List.find?_eq_some_iff_append.mp hget
  have hpre' : ∀ x ∈ pre, serves x = false := fun x hx ↦ by simpa using hpre x hx
  have hn : pre.length < pool.curNum.toNat := by
    rw [h, Int.toNat_natCast, heq, List.length_append, List.length_cons]
    exact Nat.lt_add_of_pos_right (Nat.succ_pos _)
  refine ⟨pre, post, heq, hpre', hw, ?_⟩
  rw [Pool.remove, heq, removeLoop_append hpre' hw hn]
  rfl

/-- Removing a worker that is not. -/
theorem Counts.remove_of_get_none (h : pool.Counts) (hget : pool.get serves = none) :
    pool.remove serves = pool := by
  have hnone : ∀ x ∈ pool.workers, serves x = false := by
    simpa [Pool.get, List.find?_eq_none] using hget
  have hloop : removeLoop serves pool.workers.length (pool.workers ++ []) =
      ([] ++ pool.workers, false) := removeLoop_rotate hnone
  rw [List.append_nil] at hloop
  have hnat : pool.curNum.toNat = pool.workers.length := by rw [h, Int.toNat_natCast]
  rw [Pool.remove, hnat, hloop]
  rfl

theorem Counts.remove (h : pool.Counts) (serves : α → Bool) : (pool.remove serves).Counts := by
  cases hget : pool.get serves with
  | none => rw [h.remove_of_get_none hget]; exact h
  | some w =>
      obtain ⟨pre, post, heq, -, -, hrem⟩ := h.remove_of_get hget
      rw [hrem]
      show pool.curNum - 1 = ((post ++ pre).length : Int)
      rw [h, heq, List.length_append, List.length_append, List.length_cons]
      push_cast
      omega

/-- What stays in the pool is what was there but the first worker looked for, in
another order. -/
theorem Counts.perm_remove (h : pool.Counts) (serves : α → Bool) :
    (pool.remove serves).workers.Perm (pool.workers.eraseP serves) := by
  cases hget : pool.get serves with
  | none =>
      have hnone : ∀ x ∈ pool.workers, ¬ serves x = true := List.find?_eq_none.mp hget
      rw [h.remove_of_get_none hget, List.eraseP_of_forall_not hnone]
  | some w =>
      obtain ⟨pre, post, heq, hpre, hw, hrem⟩ := h.remove_of_get hget
      have hpre' : ∀ x ∈ pre, ¬ serves x = true := fun x hx ↦ by
        rw [hpre x hx]
        exact Bool.false_ne_true
      rw [hrem, heq, List.eraseP_append_right _ hpre', List.eraseP_cons_of_pos hw]
      exact List.perm_append_comm

/-- What a removal does: the first worker looked for leaves, if there is one, and all
others stay once each. -/
def TakesOut (pool pool' : Pool α) (serves : α → Bool) : Prop :=
  match pool.get serves with
  | none => pool' = pool
  | some w =>
      serves w = true ∧ (w :: pool'.workers).Perm pool.workers ∧
        pool'.curNum = pool.curNum - 1 ∧ pool'.maxNum = pool.maxNum

theorem Counts.takesOut_remove (h : pool.Counts) (serves : α → Bool) :
    pool.TakesOut (pool.remove serves) serves := by
  rw [TakesOut]
  split
  · next hget => exact h.remove_of_get_none hget
  · next w hget =>
      obtain ⟨pre, post, heq, -, hw, hrem⟩ := h.remove_of_get hget
      rw [hrem, heq]
      exact ⟨hw, ((List.perm_append_comm).cons w).trans List.perm_middle.symm, rfl, rfl⟩

/-- The limit is `max`, and the count does not exceed it. -/
structure Within (pool : Pool α) (max : Int) : Prop where
  maxNum : pool.maxNum = max
  curNum : pool.curNum ≤ max

/-- What a pool is like at any time: the count is the number of queued workers and lies
between zero and the limit, and no two workers have the same key. -/
structure Sound {κ : Type} (pool : Pool α) (key : α → κ) (max : Int) : Prop where
  maxNum : pool.maxNum = max
  curNum : pool.curNum = pool.workers.length
  nonneg : 0 ≤ pool.curNum
  le_max : pool.curNum ≤ pool.maxNum
  distinct : (pool.workers.map key).Nodup

section Within

variable {pool' : Pool α} {max : Int}

theorem Within.sound {κ : Type} {key : α → κ} (h : pool.Within max) (hcounts : pool.Counts)
    (hdistinct : (pool.workers.map key).Nodup) : pool.Sound key max where
  maxNum := h.maxNum
  curNum := hcounts
  nonneg := by
    rw [hcounts]
    exact Int.natCast_nonneg _
  le_max := by
    rw [h.maxNum]
    exact h.curNum
  distinct := hdistinct

theorem within_init (h : 0 ≤ max) : (Pool.init max : Pool α).Within max := ⟨rfl, h⟩

theorem Within.add (h : pool.Within max) (hadd : pool.add w = some pool') : pool'.Within max := by
  rw [Pool.add] at hadd
  split at hadd
  · cases hadd
  · next hroom =>
      cases hadd
      rw [h.maxNum] at hroom
      exact ⟨h.maxNum, Int.add_one_le_of_lt (Int.lt_of_not_ge hroom)⟩

theorem Within.remove (h : pool.Within max) (serves : α → Bool) : (pool.remove serves).Within max := by
  refine ⟨h.maxNum, ?_⟩
  show (if _ then pool.curNum - 1 else pool.curNum) ≤ max
  split
  · exact Int.le_trans (Int.sub_le_self _ (by decide)) h.curNum
  · exact h.curNum

end Within

section Disjoint

variable {f g : α → Bool}

/-- A removal does not change what a search for another worker finds. -/
theorem Counts.get_remove (h : pool.Counts) (hg : Keyed.AtMostOne g pool.workers)
    (hdis : ∀ w ∈ pool.workers, f w = true → g w = false) : (pool.remove f).get g = pool.get g := by
  have hperm := h.perm_remove f
  have hrest : Keyed.AtMostOne g (pool.workers.eraseP f) := hg.sublist List.eraseP_sublist
  rw [Pool.get, ← hrest.find?_perm hperm.symm, Keyed.find?_eraseP_of_disjoint hdis]
  rfl

/-- Two removals of different workers, in either order. -/
theorem Counts.remove_comm (h : pool.Counts) (hf : Keyed.AtMostOne f pool.workers)
    (hg : Keyed.AtMostOne g pool.workers) (hdis : ∀ w ∈ pool.workers, f w = true → g w = false) :
    ((pool.remove f).remove g).workers.Perm ((pool.remove g).remove f).workers := by
  have hboth : ∀ {f g : α → Bool}, Keyed.AtMostOne g pool.workers →
      ((pool.remove f).remove g).workers.Perm ((pool.workers.eraseP f).eraseP g) := by
    intro f g hg
    have hafter : Keyed.AtMostOne g (pool.remove f).workers :=
      (hg.sublist List.eraseP_sublist).perm (h.perm_remove f).symm
    exact ((h.remove f).perm_remove g).trans (List.Perm.eraseP g hafter (h.perm_remove f))
  have hcomm : (pool.workers.eraseP f).eraseP g = (pool.workers.eraseP g).eraseP f := by
    apply List.eraseP_comm
    intro w hw
    by_cases hfw : f w = true
    · refine .inr ?_
      rw [hdis w hw hfw]
      exact Bool.false_ne_true
    · exact .inl hfw
  refine (hboth hg).trans ?_
  rw [hcomm]
  exact (hboth hf).symm

/-- A removal that may not be asked for. -/
def removeIf (pool : Pool α) (b : Bool) (serves : α → Bool) : Pool α :=
  if b then pool.remove serves else pool

@[simp] theorem maxNum_removeIf (pool : Pool α) (b : Bool) (serves : α → Bool) :
    (pool.removeIf b serves).maxNum = pool.maxNum := by
  cases b <;> rfl

theorem Counts.removeIf (h : pool.Counts) (b : Bool) (serves : α → Bool) :
    (pool.removeIf b serves).Counts := by
  cases b with
  | false => exact h
  | true => exact h.remove serves

theorem Counts.atMostOne_removeIf (h : pool.Counts) (b : Bool)
    (hg : Keyed.AtMostOne g pool.workers) : Keyed.AtMostOne g (pool.removeIf b f).workers := by
  cases b with
  | false => exact hg
  | true => exact (hg.sublist List.eraseP_sublist).perm (h.perm_remove f).symm

theorem Counts.get_removeIf (h : pool.Counts) (b : Bool) (hg : Keyed.AtMostOne g pool.workers)
    (hdis : ∀ w ∈ pool.workers, f w = true → g w = false) :
    (pool.removeIf b f).get g = pool.get g := by
  cases b with
  | false => rfl
  | true => exact h.get_remove hg hdis

theorem Counts.removeIf_comm (h : pool.Counts) {b b' : Bool}
    (hf : b = true → Keyed.AtMostOne f pool.workers)
    (hg : b' = true → Keyed.AtMostOne g pool.workers)
    (hdis : ∀ w ∈ pool.workers, f w = true → g w = false) :
    ((pool.removeIf b f).removeIf b' g).workers.Perm
      ((pool.removeIf b' g).removeIf b f).workers := by
  cases b with
  | false => exact .refl _
  | true =>
      cases b' with
      | false => exact .refl _
      | true => exact h.remove_comm (hf rfl) (hg rfl) hdis

end Disjoint

end Pool

/-! ## Receivers -/

/-- The receiver pool counts its workers, and no two of them have the same peer. -/
structure ReceiverPool.Ok (pool : ReceiverPool) : Prop where
  counts : pool.Counts
  distinct : (pool.workers.map Receiver.pSender).Nodup

/-- Put a receiver in the place of the one with the same peer. -/
def ReceiverPool.set (pool : ReceiverPool) (rcvr : Receiver) : ReceiverPool :=
  { pool with workers := Keyed.replace Receiver.pSender rcvr pool.workers }

section Receivers

variable {pool pool' : ReceiverPool} {p q : PeerRef} {rcvr : Receiver} {chunk : ChunkRef}

theorem getReceiver_eq_find (pool : ReceiverPool) (p : PeerRef) :
    getReceiver pool (some p) = Keyed.find Receiver.pSender pool.workers p := rfl

@[simp] theorem getReceiver_none (pool : ReceiverPool) : getReceiver pool none = none := rfl

/-- A receiver is found for a peer only. -/
theorem exists_peer_of_getReceiver {peer : Option PeerRef} (h : getReceiver pool peer = some rcvr) :
    ∃ p, peer = some p := by
  cases peer with
  | none => cases h
  | some p => exact ⟨p, rfl⟩

/-- The receiver found for a peer is one of the pool's. -/
theorem mem_of_getReceiver (h : getReceiver pool (some p) = some rcvr) :
    rcvr ∈ pool.workers ∧ rcvr.pSender = p := Keyed.mem_of_find h

/-- Adding a receiver for a peer that has none. -/
theorem getReceiver_addReceiver (hfree : getReceiver pool (some p) = none)
    (hadd : addReceiver pool p chunk = some pool') (hpool : pool.Counts) :
    getReceiver pool' (some q) =
      if p = q then some (newReceiver p chunk) else getReceiver pool (some q) := by
  obtain ⟨-, hworkers⟩ := hpool.add hadd
  rw [getReceiver_eq_find, getReceiver_eq_find, hworkers, Keyed.find_concat]
  show (_ : Option Receiver).or (if p = q then _ else none) = _
  by_cases hq : p = q
  · subst hq
    rw [if_pos rfl, if_pos rfl, show Keyed.find Receiver.pSender pool.workers p = none from hfree]
    rfl
  · rw [if_neg hq, if_neg hq, Option.or_none]

theorem ReceiverPool.Ok.add (h : pool.Ok) (hfree : getReceiver pool (some p) = none)
    (hadd : addReceiver pool p chunk = some pool') : pool'.Ok := by
  obtain ⟨hcounts, hworkers⟩ := h.counts.add hadd
  refine ⟨hcounts, ?_⟩
  rw [hworkers, List.map_append, List.map_singleton, List.nodup_append]
  refine ⟨h.distinct, List.nodup_singleton _, ?_⟩
  intro a ha b hb hab
  rw [List.mem_singleton] at hb
  obtain ⟨r, hr, rfl⟩ := List.mem_map.mp ha
  exact Keyed.find_eq_none_iff.mp hfree r hr (hab.trans hb)

theorem getReceiver_set (pool : ReceiverPool) (rcvr : Receiver) (q : PeerRef) :
    getReceiver (pool.set rcvr) (some q) =
      if rcvr.pSender = q then (getReceiver pool (some q)).map fun _ ↦ rcvr
      else getReceiver pool (some q) :=
  Keyed.find_replace rcvr pool.workers q

theorem ReceiverPool.Ok.set (h : pool.Ok) (rcvr : Receiver) : (pool.set rcvr).Ok := by
  have hkeys : (pool.set rcvr).workers.map Receiver.pSender = pool.workers.map Receiver.pSender :=
    Keyed.map_replace _ _ _
  refine ⟨?_, hkeys ▸ h.distinct⟩
  show pool.curNum = ((pool.set rcvr).workers.length : Int)
  rw [h.counts, ← List.length_map (f := Receiver.pSender), ← hkeys, List.length_map]

theorem getReceiver_removeReceiver (h : pool.Ok) (rcvr : Receiver) (q : PeerRef) :
    getReceiver (removeReceiver pool rcvr) (some q) =
      if rcvr.pSender = q then none else getReceiver pool (some q) := by
  cases hget : pool.get fun r ↦ r.pSender == rcvr.pSender with
  | none =>
      rw [removeReceiver, h.counts.remove_of_get_none hget]
      by_cases hq : rcvr.pSender = q
      · rw [if_pos hq, ← hq]
        exact hget
      · rw [if_neg hq]
  | some w =>
      obtain ⟨pre, post, heq, -, hw, hrem⟩ := h.counts.remove_of_get hget
      have hkey : w.pSender = rcvr.pSender := by simpa using hw
      have hdistinct := h.distinct
      rw [heq] at hdistinct
      rw [removeReceiver, hrem, getReceiver_eq_find, getReceiver_eq_find, heq, ← hkey]
      exact Keyed.find_rotate_drop hdistinct q

theorem ReceiverPool.Ok.remove (h : pool.Ok) (rcvr : Receiver) : (removeReceiver pool rcvr).Ok := by
  refine ⟨h.counts.remove _, ?_⟩
  cases hget : pool.get fun r ↦ r.pSender == rcvr.pSender with
  | none =>
      rw [removeReceiver, h.counts.remove_of_get_none hget]
      exact h.distinct
  | some w =>
      obtain ⟨pre, post, heq, -, -, hrem⟩ := h.counts.remove_of_get hget
      have hdistinct := h.distinct
      rw [heq, ((List.perm_middle.trans ((List.perm_append_comm).cons w)).map _).nodup_iff,
        List.map_cons, List.nodup_cons] at hdistinct
      rw [removeReceiver, hrem]
      exact hdistinct.2

end Receivers

end BitTorrent
