import Mathlib.Data.List.Basic
import Mathlib.Logic.Function.Basic
import BitTorrent.Library.Linked
import BitTorrent.Library.Run

/-!
# Queues in memory

`queue.c` keeps a queue as a list of nodes with a pointer to the first one, a pointer to the last
one and a count, an `int`.  Everywhere else in the peer a queue is a list, which is what these
functions make of it: `enqueue` appends, `dequeue` takes the first element, and `enqueue_all`
appends one queue to another or to itself.
-/

universe u

namespace BitTorrent

open Linked (Chain Reachable)

/-- Where a `node` is in memory. -/
abbrev NodeRef := Nat

/-- Where a `queue` is in memory. -/
abbrev QueueRef := Nat

/-- `struct queue` -/
structure Queue where
  head : Option NodeRef
  tail : Option NodeRef
  n : Int32

/-- The queues that `init_queue` has been called on, and the nodes that are allocated.  Data is a
`void *`: `none` stands for `NULL`. -/
structure QueueHeap (α : Type u) where
  queues : QueueRef → Option Queue
  nodes : Linked.Heap NodeRef (Option α)

namespace QueueHeap

variable {α : Type u}

/-- Nothing is allocated. -/
def empty : QueueHeap α := { queues := fun _ ↦ none, nodes := fun _ ↦ none }

/-! ## The functions

They have no value where the source follows a pointer that is `NULL` or leads nowhere.  The
addresses that `malloc` gives are arguments: one that is in use is not given, and there is no value
then either. -/

/-- `init_queue` -/
def initQueue (m : QueueHeap α) (queue1 : QueueRef) : QueueHeap α :=
  { m with queues := Function.update m.queues queue1 (some { head := none, tail := none, n := 0 }) }

/-- `enqueue`, for which `malloc` gives `node1`. -/
def enqueue (m : QueueHeap α) (queue1 : QueueRef) (data : Option α) (node1 : NodeRef) :
    Option (QueueHeap α) :=
  match m.queues queue1, m.nodes node1 with
  | some queue, none =>
      let nodes := Function.update m.nodes node1 (some { data := data, next := none })
      match queue.tail with
      | none => some {
          queues := Function.update m.queues queue1
            (some { head := some node1, tail := some node1, n := queue.n + 1 })
          nodes := nodes }
      | some tail => (nodes tail).map fun last ↦ {
          queues := Function.update m.queues queue1
            (some { head := queue.head, tail := some node1, n := queue.n + 1 })
          nodes := Function.update nodes tail (some { last with next := some node1 }) }
  | _, _ => none

/-- `dequeue` -/
def dequeue (m : QueueHeap α) : Option QueueRef → Option (Option α × QueueHeap α)
  | none => some (none, m)
  | some queue1 => (m.queues queue1).bind fun queue ↦
      if queue.n ≤ 0 then some (none, m)
      else queue.head.bind fun head ↦ (m.nodes head).map fun first ↦
        (first.data, {
          queues := Function.update m.queues queue1 (some {
            head := first.next
            tail := if first.next.isNone then first.next else queue.tail
            n := queue.n - 1 })
          nodes := Function.update m.nodes head none })

/-- `is_empty` -/
def isEmpty (m : QueueHeap α) : Option QueueRef → Option Bool
  | none => some true
  | some queue1 => (m.queues queue1).map fun queue ↦ decide (queue.n ≤ 0)

/-- The loop of `enqueue_all` with `left` rounds to go, the next of them round `i`.  The next node
is read from `cur_node` after the call of `enqueue`. -/
def enqueueAllLoop (dest : QueueRef) (m : QueueHeap α) (left i : Nat) (curNode : Option NodeRef)
    (given : List NodeRef) : Option (Nat × QueueHeap α) :=
  match left, curNode with
  | 0, _ => some (i, m)
  | _ + 1, none => some (i, m)
  | left + 1, some curNode =>
      (m.nodes curNode).bind fun cell ↦ given.head?.bind fun node1 ↦
        (m.enqueue dest cell.data node1).bind fun m ↦ (m.nodes curNode).bind fun cell ↦
          enqueueAllLoop dest m left (i + 1) cell.next given.tail

/-- `enqueue_all`, for which `malloc` gives the nodes of `given` in turn. -/
def enqueueAll (m : QueueHeap α) (dest src : Option QueueRef) (given : List NodeRef) :
    Option (Nat × QueueHeap α) :=
  match dest, src with
  | some dest, some src => (m.isEmpty (some src)).bind fun empty ↦
      if empty then some (0, m)
      else (m.queues src).bind fun queue ↦
        enqueueAllLoop dest m queue.n.toNatClampNeg 0 queue.head given
  | _, _ => some (0, m)

end QueueHeap

/-! ## Sequences of calls -/

/-- A call, with what `malloc` gives for it. -/
inductive QueueCall (α : Type u) where
  | initQueue (queue1 : QueueRef)
  | enqueue (queue1 : QueueRef) (data : Option α) (node1 : NodeRef)
  | dequeue (queue1 : Option QueueRef)
  | enqueueAll (dest src : Option QueueRef) (given : List NodeRef)

/-- What a call returns. -/
inductive Returned (α : Type u) where
  | void
  | data (data : Option α)
  | count (i : Nat)

variable {α : Type u}

def QueueHeap.call (m : QueueHeap α) : QueueCall α → Option (Returned α × QueueHeap α)
  | .initQueue queue1 => some (.void, m.initQueue queue1)
  | .enqueue queue1 data node1 => (m.enqueue queue1 data node1).map fun m ↦ (.void, m)
  | .dequeue queue1 => (m.dequeue queue1).map fun out ↦ (.data out.1, out.2)
  | .enqueueAll dest src given => (m.enqueueAll dest src given).map fun out ↦ (.count out.1, out.2)

/-- What the queues stand for: each one that `init_queue` has been called on for a list. -/
abbrev QueueLists (α : Type u) := QueueRef → Option (List (Option α))

/-- What a call is meant to do with the lists. -/
def QueueLists.call (lists : QueueLists α) : QueueCall α → Option (Returned α × QueueLists α)
  | .initQueue q => some (.void, Function.update lists q (some []))
  | .enqueue q x _ => (lists q).map fun xs ↦ (.void, Function.update lists q (some (xs ++ [x])))
  | .dequeue none => some (.data none, lists)
  | .dequeue (some q) => (lists q).map fun
      | [] => (.data none, lists)
      | x :: xs => (.data x, Function.update lists q (some xs))
  | .enqueueAll (some dest) (some src) _ => (lists src).bind fun xs ↦
      if xs = [] then some (.count 0, lists)
      else (lists dest).map fun ys ↦
        (.count xs.length, Function.update lists dest (some (ys ++ xs)))
  | .enqueueAll _ _ _ => some (.count 0, lists)

/-- A call, with what the calls so far have returned. -/
def QueueHeap.step (s : QueueHeap α × List (Returned α)) (c : QueueCall α) :
    Option (QueueHeap α × List (Returned α)) :=
  (s.1.call c).map fun out ↦ (out.2, s.2 ++ [out.1])

def QueueLists.step (s : QueueLists α × List (Returned α)) (c : QueueCall α) :
    Option (QueueLists α × List (Returned α)) :=
  (s.1.call c).map fun out ↦ (out.2, s.2 ++ [out.1])

/-! ## What is kept true -/

/-- `n` counts the nodes that can be reached from `head`, and `tail` is the last of them. -/
structure Queue.Ok (nodes : Linked.Heap NodeRef (Option α)) (queue : Queue) : Prop where
  allocated : ∀ r, Reachable nodes queue.head r → ∃ cell, nodes r = some cell
  finite : {r | Reachable nodes queue.head r}.Finite
  count : queue.n.toInt = {r | Reachable nodes queue.head r}.ncard
  ends : queue.head = none ∧ queue.tail = none ∨
    ∃ last cell, queue.tail = some last ∧ Reachable nodes queue.head last ∧
      nodes last = some cell ∧ cell.next = none

/-- The queue stands for the list of the data of its nodes. -/
structure Queue.StandsFor (nodes : Linked.Heap NodeRef (Option α)) (queue : Queue)
    (xs : List (Option α)) : Prop where
  ok : queue.Ok nodes
  contents : ∃ l, Chain nodes queue.head l ∧ l.map Prod.snd = xs

/-- What `malloc` gives for a call is not in use, and there is as much of it as the call asks
for. -/
def QueueHeap.Given (m : QueueHeap α) : QueueCall α → Prop
  | .enqueue _ _ node1 => m.nodes node1 = none
  | .enqueueAll _ (some src) given => given.Nodup ∧ (∀ r ∈ given, m.nodes r = none) ∧
      ∀ queue, m.queues src = some queue → queue.n.toNatClampNeg ≤ given.length
  | _ => True

/-- The queues stand for the lists and have no nodes in common, the calls have returned what they
were meant to, and so will the next one. -/
structure Refines (s : QueueHeap α × List (Returned α)) (t : QueueLists α × List (Returned α)) :
    Prop where
  queue : ∀ q, Option.Rel (Queue.StandsFor s.1.nodes) (s.1.queues q) (t.1 q)
  unshared : ∀ q q' queue queue' r, q ≠ q' → s.1.queues q = some queue →
    s.1.queues q' = some queue' →
      ¬ (Reachable s.1.nodes queue.head r ∧ Reachable s.1.nodes queue'.head r)
  returned : s.2 = t.2
  returns : ∀ c, s.1.Given c → (t.1.call c).isSome = true → (s.1.call c).isSome = true

/-- The length of each list is an `int`. -/
def QueueLists.Short (lists : QueueLists α) : Prop := ∀ q xs, lists q = some xs → xs.length < 2 ^ 31

/-! ## One queue

The nodes of a queue, as pairs of an address and the data. -/

variable {nodes nodes' : Linked.Heap NodeRef (Option α)} {queue : Queue}
  {l l' : List (NodeRef × Option α)} {x : Option α} {r : NodeRef}

/-- The queue is made of the nodes of `l`.  Its count is their number, cut to 32 bits. -/
structure Queue.Holds (nodes : Linked.Heap NodeRef (Option α)) (queue : Queue)
    (l : List (NodeRef × Option α)) : Prop where
  chain : Chain nodes queue.head l
  tail : queue.tail = (l.map Prod.fst).getLast?
  n : queue.n = Int32.ofNat l.length

/-- A count that is an `int` is positive unless it is zero. -/
theorem ofNat_le_zero_iff {n : Nat} (h : n < 2 ^ 31) : Int32.ofNat n ≤ 0 ↔ n = 0 := by
  rw [Int32.le_iff_toInt_le, Int32.toInt_ofNat_of_lt h, Int32.toInt_zero]
  omega

namespace Queue.Holds

/-- The last node, for a queue that has one. -/
theorem tail_concat (h : queue.Holds nodes (l ++ [(r, x)])) : queue.tail = some r := by
  rw [h.tail, List.map_append, List.map_singleton, List.getLast?_concat]

theorem tail_nil (h : queue.Holds nodes []) : queue.tail = none := h.tail

theorem head_nil (h : queue.Holds nodes []) : queue.head = none := h.chain.head_eq

/-- As long as the count is one, the queue is as it should be. -/
theorem standsFor (h : queue.Holds nodes l) (hlen : l.length < 2 ^ 31) :
    queue.StandsFor nodes (l.map Prod.snd) := by
  refine ⟨⟨?_, h.chain.finite_reachable, ?_, ?_⟩, l, h.chain, rfl⟩
  · intro r hr
    exact h.chain.exists_of_mem (h.chain.reachable_iff.mp hr)
  · rw [h.n, Int32.toInt_ofNat_of_lt hlen, h.chain.ncard_reachable]
  · rcases List.eq_nil_or_concat l with rfl | ⟨pre, ⟨r, x⟩, rfl⟩
    · exact .inl ⟨h.head_nil, h.tail_nil⟩
    · rw [List.concat_eq_append] at h
      refine .inr ⟨r, ⟨x, none⟩, h.tail_concat, ?_, h.chain.last, rfl⟩
      rw [h.chain.reachable_iff, List.map_append]
      exact List.mem_append_right _ (List.mem_singleton_self _)

end Queue.Holds

/-! ## All queues -/

namespace QueueHeap

variable {m m' : QueueHeap α} {ls : QueueRef → Option (List (NodeRef × Option α))}
  {q : QueueRef} {node1 : NodeRef}

/-- Each queue is made of the nodes that `ls` gives for it, and no two have one in common. -/
structure Holds (m : QueueHeap α) (ls : QueueRef → Option (List (NodeRef × Option α))) : Prop where
  queue : ∀ q, Option.Rel (Queue.Holds m.nodes) (m.queues q) (ls q)
  disjoint : ∀ q q' l l', ls q = some l → ls q' = some l' → q ≠ q' →
    (l.map Prod.fst).Disjoint (l'.map Prod.fst)

theorem holds_empty : (empty : QueueHeap α).Holds fun _ ↦ none where
  queue _ := .none
  disjoint _ _ _ _ h := nomatch h

theorem Holds.exists_queue (h : m.Holds ls) (hq : ls q = some l) :
    ∃ queue, m.queues q = some queue ∧ queue.Holds m.nodes l := by
  have hrel := h.queue q
  rw [hq] at hrel
  generalize m.queues q = queue at hrel
  cases hrel with
  | some hqueue => exact ⟨_, rfl, hqueue⟩

theorem Holds.exists_list (h : m.Holds ls) (hq : m.queues q = some queue) :
    ∃ l, ls q = some l ∧ queue.Holds m.nodes l := by
  have hrel := h.queue q
  rw [hq] at hrel
  generalize ls q = list at hrel
  cases hrel with
  | some hqueue => exact ⟨_, rfl, hqueue⟩

theorem Holds.queues_eq_none (h : m.Holds ls) (hq : ls q = none) : m.queues q = none := by
  have hrel := h.queue q
  rw [hq] at hrel
  generalize m.queues q = queue at hrel
  cases hrel
  rfl

/-- The nodes of a queue are allocated. -/
theorem Holds.ne_of_free (h : m.Holds ls) (hq : ls q = some l) (hr : r ∈ l.map Prod.fst)
    (hfree : m.nodes node1 = none) : r ≠ node1 := by
  obtain ⟨queue, -, hqueue⟩ := h.exists_queue hq
  exact hqueue.chain.ne_of_free hr hfree

/-- A change to one queue that leaves the nodes of the others alone. -/
theorem Holds.update (h : m.Holds ls) (hqueue : queue.Holds nodes' l')
    (hframe : ∀ q' l, q' ≠ q → ls q' = some l → ∀ r ∈ l.map Prod.fst, nodes' r = m.nodes r)
    (hdisj : ∀ q' l, q' ≠ q → ls q' = some l → (l'.map Prod.fst).Disjoint (l.map Prod.fst)) :
    Holds { queues := Function.update m.queues q (some queue), nodes := nodes' }
      (Function.update ls q (some l')) := by
  refine ⟨?_, ?_⟩
  · intro q'
    show Option.Rel (Queue.Holds nodes') (Function.update m.queues q (some queue) q') _
    by_cases hq : q' = q
    · subst hq
      rw [Function.update_self, Function.update_self]
      exact .some hqueue
    · rw [Function.update_of_ne hq, Function.update_of_ne hq]
      cases hlist : ls q' with
      | none =>
          rw [h.queues_eq_none hlist]
          exact .none
      | some l =>
          obtain ⟨queue', hqueue', hholds⟩ := h.exists_queue hlist
          rw [hqueue']
          exact .some ⟨hholds.chain.congr (hframe q' l hq hlist), hholds.tail, hholds.n⟩
  · intro q₁ q₂ l₁ l₂ h₁ h₂ hne
    by_cases hq₁ : q₁ = q
    · subst hq₁
      rw [Function.update_self, Option.some.injEq] at h₁
      rw [Function.update_of_ne (Ne.symm hne)] at h₂
      exact h₁ ▸ hdisj q₂ l₂ (Ne.symm hne) h₂
    · rw [Function.update_of_ne hq₁] at h₁
      by_cases hq₂ : q₂ = q
      · subst hq₂
        rw [Function.update_self, Option.some.injEq] at h₂
        exact h₂ ▸ (hdisj q₁ l₁ hq₁ h₁).symm
      · rw [Function.update_of_ne hq₂] at h₂
        exact h.disjoint q₁ q₂ l₁ l₂ h₁ h₂ hne

theorem Holds.initQueue (h : m.Holds ls) (q : QueueRef) :
    (m.initQueue q).Holds (Function.update ls q (some [])) :=
  h.update ⟨.nil, rfl, rfl⟩ (fun _ _ _ _ _ _ ↦ rfl) fun _ _ _ _ ↦ List.disjoint_nil_left _

/-! ## `enqueue` and `dequeue` -/

theorem of_enqueue_eq_some (h : m.enqueue q x node1 = some m') :
    m.nodes node1 = none ∧ ∃ queue, m.queues q = some queue := by
  rw [enqueue] at h
  split at h
  · next queue hqueue hfree => exact ⟨hfree, queue, hqueue⟩
  · cases h

/-- `enqueue` puts a node behind the last one, and allocates no other. -/
theorem Holds.enqueue (h : m.Holds ls) (hq : ls q = some l) (hfree : m.nodes node1 = none)
    (x : Option α) : ∃ m', m.enqueue q x node1 = some m' ∧
      m'.Holds (Function.update ls q (some (l ++ [(node1, x)]))) ∧
      ∀ r, r ≠ node1 → m.nodes r = none → m'.nodes r = none := by
  obtain ⟨queue, hqueue, hholds⟩ := h.exists_queue hq
  have hcount : queue.n + 1 = Int32.ofNat (l ++ [(node1, x)]).length := by
    rw [hholds.n, List.length_append, Int32.ofNat_add]
    rfl
  have hdisj : ∀ q' l', q' ≠ q → ls q' = some l' →
      ((l ++ [(node1, x)]).map Prod.fst).Disjoint (l'.map Prod.fst) := by
    intro q' l' hne hq'
    rw [List.map_append, List.disjoint_append_left]
    exact ⟨h.disjoint q q' l l' hq hq' hne.symm,
      List.singleton_disjoint.mpr fun hmem ↦ h.ne_of_free hq' hmem hfree rfl⟩
  rw [QueueHeap.enqueue, hqueue, hfree]
  rcases List.eq_nil_or_concat l with rfl | ⟨pre, ⟨last, y⟩, rfl⟩
  · simp only [hholds.tail_nil]
    refine ⟨_, rfl, h.update ⟨.cons (Function.update_self ..) .nil, rfl, hcount⟩ ?_ hdisj, ?_⟩
    · intro q' l' hne hq' r hr
      exact Function.update_of_ne (h.ne_of_free hq' hr hfree) _ _
    · intro r hr hnone
      exact (Function.update_of_ne hr _ _).trans hnone
  · rw [List.concat_eq_append] at *
    have hlast := hholds.chain.last
    have hmem : last ∈ (pre ++ [(last, y)]).map Prod.fst := by simp
    have hne := h.ne_of_free hq hmem hfree
    simp only [hholds.tail_concat, Function.update_of_ne hne, hlast, Option.map_some]
    refine ⟨_, rfl, h.update ⟨hholds.chain.link hfree x, ?_, hcount⟩ ?_ hdisj, ?_⟩
    · simp
    · intro q' l' hne' hq' r hr
      have hother : r ≠ last := fun heq ↦
        h.disjoint q' q l' _ hq' hq hne' hr (heq ▸ hmem)
      rw [Function.update_of_ne hother, Function.update_of_ne (h.ne_of_free hq' hr hfree)]
    · intro r hr hnone
      have hother : r ≠ last := (hholds.chain.ne_of_free hmem hnone).symm
      refine (Function.update_of_ne hother _ _).trans ?_
      rw [Function.update_of_ne hr, hnone]

theorem Holds.dequeue_nil (h : m.Holds ls) (hq : ls q = some []) :
    m.dequeue (some q) = some (none, m) := by
  obtain ⟨queue, hqueue, hholds⟩ := h.exists_queue hq
  rw [dequeue, hqueue, Option.bind_some, hholds.n]
  exact if_pos (Int32.le_refl 0)

/-- `dequeue` takes the first node, and frees it. -/
theorem Holds.dequeue_cons (h : m.Holds ls) (hq : ls q = some ((r, x) :: l))
    (hlen : ((r, x) :: l).length < 2 ^ 31) :
    ∃ m', m.dequeue (some q) = some (x, m') ∧ m'.Holds (Function.update ls q (some l)) := by
  obtain ⟨queue, hqueue, hholds⟩ := h.exists_queue hq
  obtain ⟨next, hr, hnext⟩ := hholds.chain.of_cons
  have hhead : queue.head = some r := hholds.chain.head_eq
  have hpos : ¬ queue.n ≤ 0 := by
    rw [hholds.n, ofNat_le_zero_iff hlen]
    exact List.cons_ne_nil _ _ ∘ List.length_eq_zero_iff.mp
  have hcount : queue.n - 1 = Int32.ofNat l.length := by
    rw [hholds.n, List.length_cons, Int32.ofNat_add]
    exact Int32.add_sub_cancel _ _
  have hrest : ∀ t ∈ l.map Prod.fst, t ≠ r := by
    rintro t ht rfl
    exact (List.nodup_cons.mp hholds.chain.nodup).1 ht
  rw [dequeue, hqueue, Option.bind_some, if_neg hpos, hhead, Option.bind_some, hr, Option.map_some]
  refine ⟨_, rfl, h.update ⟨?_, ?_, hcount⟩ ?_ ?_⟩
  · exact hnext.congr fun t ht ↦ Function.update_of_ne (hrest t ht) _ _
  · show (if next.isNone then next else queue.tail) = _
    cases hnext with
    | nil => rfl
    | cons hs hl => exact hholds.tail
  · intro q' l' hne hq' s hs
    refine Function.update_of_ne (fun heq ↦ ?_) _ _
    exact h.disjoint q' q l' _ hq' hq hne hs (heq ▸ List.mem_cons_self ..)
  · intro q' l' hne hq'
    exact (List.disjoint_cons_left.mp (h.disjoint q q' _ l' hq hq' hne.symm)).2

/-! ## `is_empty` and `enqueue_all` -/

/-- `is_empty`, as long as the count is one. -/
theorem Holds.isEmpty (h : m.Holds ls) (hq : ls q = some l) (hlen : l.length < 2 ^ 31) :
    m.isEmpty (some q) = some (decide (l = [])) := by
  obtain ⟨queue, hqueue, hholds⟩ := h.exists_queue hq
  rw [QueueHeap.isEmpty, hqueue, Option.map_some, hholds.n, Option.some.injEq, decide_eq_decide,
    ofNat_le_zero_iff hlen, List.length_eq_zero_iff]

/-- The lists that the queues stand for. -/
def contents (ls : QueueRef → Option (List (NodeRef × Option α))) : QueueLists α :=
  fun q ↦ (ls q).map (List.map Prod.snd)

theorem contents_eq (hq : ls q = some l) : contents ls q = some (l.map Prod.snd) := by
  rw [contents, hq, Option.map_some]

@[simp] theorem contents_update (ls : QueueRef → Option (List (NodeRef × Option α))) (q : QueueRef)
    (l : List (NodeRef × Option α)) : contents (Function.update ls q (some l)) =
      Function.update (contents ls) q (some (l.map Prod.snd)) := by
  funext q'
  by_cases hq : q' = q
  · subst hq
    rw [contents, Function.update_self, Function.update_self, Option.map_some]
  · rw [contents, Function.update_of_ne hq, Function.update_of_ne hq, contents]

theorem short_contents_iff :
    (contents ls).Short ↔ ∀ q l, ls q = some l → l.length < 2 ^ 31 := by
  constructor
  · intro h q l hq
    have := h q _ (contents_eq hq)
    rwa [List.length_map] at this
  · intro h q xs hq
    obtain ⟨l, hl, rfl⟩ := Option.map_eq_some_iff.mp hq
    rw [List.length_map]
    exact h q l hl

variable {dest src : QueueRef} {ys pre rest : List (NodeRef × Option α)} {left i : Nat}
  {given : List NodeRef} {out : Nat × QueueHeap α}

/-- One round of `enqueue_all`, which is at the node of `src` behind `pre`.  The nodes behind it
stay, and where `dest` is `src` itself there is one more in the end. -/
theorem Holds.enqueue_from (h : m.Holds ls) (hsrc : ls src = some (pre ++ (r, x) :: rest))
    (hdest : ls dest = some ys) (hfree : m.nodes node1 = none) :
    ∃ m' rest', m.enqueue dest x node1 = some m' ∧
      m'.Holds (Function.update ls dest (some (ys ++ [(node1, x)]))) ∧
      Function.update ls dest (some (ys ++ [(node1, x)])) src =
        some (pre ++ [(r, x)] ++ rest') ∧ rest <+: rest' ∧
      m'.nodes r = some ⟨x, (rest'.map Prod.fst).head?⟩ ∧
      ∀ r, r ≠ node1 → m.nodes r = none → m'.nodes r = none := by
  obtain ⟨m', henqueue, h', hframe⟩ := h.enqueue hdest hfree x
  have hsrc' : ∃ rest', rest <+: rest' ∧
      Function.update ls dest (some (ys ++ [(node1, x)])) src =
        some (pre ++ [(r, x)] ++ rest') := by
    by_cases hsame : src = dest
    · subst hsame
      obtain rfl : pre ++ (r, x) :: rest = ys := Option.some.inj (hsrc.symm.trans hdest)
      refine ⟨rest ++ [(node1, x)], List.prefix_append _ _, ?_⟩
      rw [Function.update_self]
      simp
    · refine ⟨rest, List.prefix_rfl, ?_⟩
      rw [Function.update_of_ne hsame, hsrc]
      simp
  obtain ⟨rest', hprefix, hsrc'⟩ := hsrc'
  obtain ⟨queue, -, hholds⟩ := h'.exists_queue hsrc'
  rw [List.append_assoc, List.singleton_append] at hholds
  obtain ⟨next, hr, hnext⟩ := hholds.chain.of_append
  exact ⟨m', rest', henqueue, h', hsrc', hprefix, hnext.head_eq ▸ hr, hframe⟩

/-- A round of the loop that is gone through to its end. -/
theorem Holds.of_enqueueAllLoop_succ (h : m.Holds ls) (hsrc : ls src = some (pre ++ (r, x) :: rest))
    (hloop : enqueueAllLoop dest m (left + 1) i (some r) given = some out) :
    ∃ node1 m', m.enqueue dest x node1 = some m' ∧ (m'.nodes r).bind (fun cell ↦
      enqueueAllLoop dest m' left (i + 1) cell.next given.tail) = some out := by
  obtain ⟨queue, -, hholds⟩ := h.exists_queue hsrc
  obtain ⟨next, hr, -⟩ := hholds.chain.of_append
  rw [enqueueAllLoop, hr, Option.bind_some] at hloop
  obtain ⟨node1, -, hloop⟩ := Option.bind_eq_some_iff.mp hloop
  obtain ⟨m', henqueue, hloop⟩ := Option.bind_eq_some_iff.mp hloop
  exact ⟨node1, m', henqueue, hloop⟩

/-- The loop of `enqueue_all` appends the data of the next `left` nodes of `src`, which are there
from the start. -/
theorem Holds.of_enqueueAllLoop_eq_some (h : m.Holds ls) (hsrc : ls src = some (pre ++ rest))
    (hdest : ls dest = some ys) (hleft : left ≤ rest.length)
    (hloop : enqueueAllLoop dest m left i (rest.map Prod.fst).head? given = some out) :
    out.1 = i + left ∧ ∃ ls', out.2.Holds ls' ∧ contents ls' = Function.update (contents ls) dest
      (some (ys.map Prod.snd ++ (rest.map Prod.snd).take left)) := by
  induction left generalizing m ls pre rest ys i given with
  | zero =>
      rw [enqueueAllLoop, Option.some.injEq] at hloop
      subst hloop
      refine ⟨rfl, ls, h, ?_⟩
      rw [List.take_zero, List.append_nil, eq_comm, Function.update_eq_self_iff,
        contents_eq hdest]
  | succ left ih =>
      match rest with
      | (r, x) :: rest =>
          obtain ⟨node1, m₁, henqueue, hloop⟩ := h.of_enqueueAllLoop_succ hsrc hloop
          obtain ⟨m', rest', henqueue', h', hsrc', hprefix, hnext, -⟩ :=
            h.enqueue_from hsrc hdest (of_enqueue_eq_some henqueue).1
          obtain rfl : m' = m₁ := Option.some.inj (henqueue'.symm.trans henqueue)
          rw [hnext, Option.bind_some] at hloop
          have hlong : left ≤ rest.length := Nat.le_of_succ_le_succ hleft
          obtain ⟨hcount, ls', hout, hcontents⟩ := ih h' hsrc' (Function.update_self ..)
            (hlong.trans hprefix.length_le) hloop
          refine ⟨by omega, ls', hout, ?_⟩
          have htake : (rest'.map Prod.snd).take left = (rest.map Prod.snd).take left := by
            obtain ⟨more, rfl⟩ := hprefix
            rw [List.map_append, List.take_append_of_le_length (by rwa [List.length_map])]
          rw [hcontents, contents_update, Function.update_idem, htake]
          simp

/-- It does not follow a pointer that leads nowhere. -/
theorem Holds.isSome_enqueueAllLoop (h : m.Holds ls) (hsrc : ls src = some (pre ++ rest))
    (hdest : ls dest = some ys) (hnodup : given.Nodup) (hfree : ∀ r ∈ given, m.nodes r = none)
    (hleft : left ≤ given.length) :
    (enqueueAllLoop dest m left i (rest.map Prod.fst).head? given).isSome = true := by
  induction left generalizing m ls pre rest ys i given with
  | zero => rfl
  | succ left ih =>
      match rest, given with
      | [], _ => rfl
      | (r, x) :: rest, node1 :: given =>
          rw [List.forall_mem_cons] at hfree
          obtain ⟨hnew, hnodup⟩ := List.nodup_cons.mp hnodup
          obtain ⟨queue, -, hholds⟩ := h.exists_queue hsrc
          obtain ⟨next, hr, -⟩ := hholds.chain.of_append
          obtain ⟨m', rest', henqueue, h', hsrc', -, hnext, hframe⟩ :=
            h.enqueue_from hsrc hdest hfree.1
          rw [List.map_cons, List.head?_cons, enqueueAllLoop, hr, Option.bind_some,
            List.head?_cons, Option.bind_some, henqueue, Option.bind_some, hnext,
            Option.bind_some]
          refine ih h' hsrc' (Function.update_self ..) hnodup (fun s hs ↦ ?_)
            (Nat.le_of_succ_le_succ hleft)
          exact hframe s (fun heq ↦ hnew (heq ▸ hs)) (hfree.2 s hs)

/-- `enqueue_all` goes over as many nodes as `src` has when it is called. -/
theorem Holds.enqueueAll_eq (h : m.Holds ls) (hsrc : ls src = some l) (hlen : l.length < 2 ^ 31) :
    m.enqueueAll (some dest) (some src) given = if l = [] then some (0, m) else
      enqueueAllLoop dest m l.length 0 (l.map Prod.fst).head? given := by
  obtain ⟨queue, hqueue, hholds⟩ := h.exists_queue hsrc
  rw [QueueHeap.enqueueAll, h.isEmpty hsrc hlen, Option.bind_some, hqueue, Option.bind_some,
    hholds.n, hholds.chain.head_eq, Int32.toNatClampNeg_ofNat_of_lt hlen]
  simp only [decide_eq_true_eq]

theorem Holds.of_enqueueAll_eq_some (h : m.Holds ls) (hshort : (contents ls).Short)
    {dest src : Option QueueRef} (hall : m.enqueueAll dest src given = some out) :
    ∃ ls', out.2.Holds ls' ∧
      (contents ls).call (.enqueueAll dest src given) = some (.count out.1, contents ls') := by
  match dest, src with
  | none, _ | some _, none =>
      cases hall
      exact ⟨ls, h, rfl⟩
  | some dest, some src =>
      obtain ⟨empty, hempty, -⟩ := Option.bind_eq_some_iff.mp hall
      obtain ⟨queue, hqueue, -⟩ := Option.map_eq_some_iff.mp hempty
      obtain ⟨l, hsrc, -⟩ := h.exists_list hqueue
      rw [h.enqueueAll_eq hsrc (short_contents_iff.mp hshort src l hsrc)] at hall
      rw [QueueLists.call, contents_eq hsrc, Option.bind_some]
      match l with
      | [] =>
          cases hall
          exact ⟨ls, h, rfl⟩
      | (r, x) :: rest =>
          rw [if_neg (List.cons_ne_nil _ _)] at hall
          have hsrc' : ls src = some ([] ++ (r, x) :: rest) := hsrc
          obtain ⟨node1, m', henqueue, -⟩ := h.of_enqueueAllLoop_succ hsrc' hall
          -- there is a first round, so `dest` is a queue
          obtain ⟨-, queue', hqueue'⟩ := of_enqueue_eq_some henqueue
          obtain ⟨ys, hdest, -⟩ := h.exists_list hqueue'
          obtain ⟨hcount, ls', hout, hcontents⟩ :=
            h.of_enqueueAllLoop_eq_some hsrc' hdest (Nat.le_refl _) hall
          refine ⟨ls', hout, ?_⟩
          rw [contents_eq hdest, Option.map_some, hcontents, hcount, ← List.length_map Prod.snd,
            List.take_length, Nat.zero_add]
          rfl

/-! ## A call -/

variable {c : QueueCall α} {ret : Returned α × QueueHeap α}

/-- A call does to the lists that the queues stand for what it is meant to. -/
theorem Holds.of_call_eq_some (h : m.Holds ls) (hshort : (contents ls).Short)
    (hcall : m.call c = some ret) :
    ∃ ls', ret.2.Holds ls' ∧ (contents ls).call c = some (ret.1, contents ls') := by
  cases c with
  | initQueue q =>
      rw [call, Option.some.injEq] at hcall
      subst hcall
      exact ⟨_, h.initQueue q, by rw [contents_update, List.map_nil, QueueLists.call]⟩
  | enqueue q x node1 =>
      obtain ⟨m₁, henqueue, rfl⟩ := Option.map_eq_some_iff.mp hcall
      obtain ⟨hfree, queue, hqueue⟩ := of_enqueue_eq_some henqueue
      obtain ⟨l, hq, -⟩ := h.exists_list hqueue
      obtain ⟨m', henqueue', h', -⟩ := h.enqueue hq hfree x
      obtain rfl : m' = m₁ := Option.some.inj (henqueue'.symm.trans henqueue)
      refine ⟨_, h', ?_⟩
      rw [contents_update, QueueLists.call, contents_eq hq, List.map_append, List.map_singleton,
        Option.map_some]
  | dequeue q =>
      obtain ⟨out, hdequeue, rfl⟩ := Option.map_eq_some_iff.mp hcall
      cases q with
      | none =>
          cases hdequeue
          exact ⟨ls, h, rfl⟩
      | some q =>
          obtain ⟨queue, hqueue, -⟩ := Option.bind_eq_some_iff.mp hdequeue
          obtain ⟨l, hq, -⟩ := h.exists_list hqueue
          rw [QueueLists.call, contents_eq hq]
          match l with
          | [] =>
              rw [h.dequeue_nil hq, Option.some.injEq] at hdequeue
              subst hdequeue
              exact ⟨ls, h, rfl⟩
          | (r, x) :: l =>
              obtain ⟨m', hdequeue', h'⟩ :=
                h.dequeue_cons hq (short_contents_iff.mp hshort q _ hq)
              rw [hdequeue', Option.some.injEq] at hdequeue
              subst hdequeue
              exact ⟨_, h', by rw [contents_update]; rfl⟩
  | enqueueAll dest src given =>
      obtain ⟨out, hall, rfl⟩ := Option.map_eq_some_iff.mp hcall
      exact h.of_enqueueAll_eq_some hshort hall

/-- It goes through wherever what it is meant to do makes sense, as long as there are nodes to be
had. -/
theorem Holds.isSome_call (h : m.Holds ls) (hshort : (contents ls).Short) (hgiven : m.Given c)
    (hc : ((contents ls).call c).isSome = true) : (m.call c).isSome = true := by
  have hlist : ∀ q, (contents ls q).isSome = true → ∃ l, ls q = some l := by
    intro q hq
    rwa [contents, Option.isSome_map, Option.isSome_iff_exists] at hq
  match c with
  | .initQueue q => rfl
  | .enqueue q x node1 =>
      rw [QueueLists.call, Option.isSome_map] at hc
      obtain ⟨l, hq⟩ := hlist q hc
      obtain ⟨m', henqueue, -⟩ := h.enqueue hq hgiven x
      rw [call, henqueue]
      rfl
  | .dequeue none => rfl
  | .dequeue (some q) =>
      rw [QueueLists.call, Option.isSome_map] at hc
      obtain ⟨l, hq⟩ := hlist q hc
      rw [call, Option.isSome_map]
      match l with
      | [] => rw [h.dequeue_nil hq, Option.isSome_some]
      | (r, x) :: l =>
          obtain ⟨m', hdequeue, -⟩ := h.dequeue_cons hq (short_contents_iff.mp hshort q _ hq)
          rw [hdequeue, Option.isSome_some]
  | .enqueueAll none _ _ | .enqueueAll (some _) none _ => rfl
  | .enqueueAll (some dest) (some src) given =>
      rw [QueueLists.call] at hc
      obtain ⟨lists, hlists⟩ := Option.isSome_iff_exists.mp hc
      obtain ⟨xs, hxs, hlists⟩ := Option.bind_eq_some_iff.mp hlists
      obtain ⟨l, hsrc, rfl⟩ := Option.map_eq_some_iff.mp hxs
      have hlen := short_contents_iff.mp hshort src l hsrc
      rw [call, Option.isSome_map, h.enqueueAll_eq hsrc hlen]
      by_cases hnil : l = []
      · rw [if_pos hnil, Option.isSome_some]
      · rw [if_neg (hnil ∘ List.map_eq_nil_iff.mp)] at hlists
        obtain ⟨ys, hys, -⟩ := Option.map_eq_some_iff.mp hlists
        obtain ⟨ys, hdest, -⟩ := Option.map_eq_some_iff.mp hys
        obtain ⟨hnodup, hfree, hmany⟩ := hgiven
        obtain ⟨queue, hqueue, hholds⟩ := h.exists_queue hsrc
        have hmany := hmany queue hqueue
        rw [hholds.n, Int32.toNatClampNeg_ofNat_of_lt hlen] at hmany
        have hsrc' : ls src = some ([] ++ l) := hsrc
        rw [if_neg hnil]
        exact h.isSome_enqueueAllLoop hsrc' hdest hnodup hfree hmany

/-! ## Sequences of calls -/

variable {cs : List (QueueCall α)} {t : QueueHeap α × List (Returned α)}

/-- As long as each count is one, the calls do to the lists what they are meant to. -/
theorem holds_of_run (hrun : Machine.run step (empty, []) cs = some t)
    (hshort : ∀ fs, fs <+: cs → ∀ l, Machine.run QueueLists.step (fun _ ↦ none, []) fs = some l →
      l.1.Short) :
    ∃ ls, t.1.Holds ls ∧
      Machine.run QueueLists.step (fun _ ↦ none, []) cs = some (contents ls, t.2) := by
  induction cs using List.reverseRecOn generalizing t with
  | nil =>
      cases hrun
      exact ⟨_, holds_empty, rfl⟩
  | append_singleton cs c ih =>
      rw [Machine.run_append] at hrun
      obtain ⟨s, hs, hlast⟩ := Option.bind_eq_some_iff.mp hrun
      obtain ⟨s', hstep, hnil⟩ := Machine.run_cons_eq_some.mp hlast
      cases hnil
      obtain ⟨ret, hcall, rfl⟩ := Option.map_eq_some_iff.mp hstep
      obtain ⟨ls, h, hlists⟩ :=
        ih hs fun fs hfs l hl ↦ hshort fs (hfs.trans (List.prefix_append _ _)) l hl
      have hls := hshort cs (List.prefix_append _ _) _ hlists
      obtain ⟨ls', h', hcall'⟩ := h.of_call_eq_some hls hcall
      refine ⟨ls', h', Machine.run_trans hlists (Machine.run_single ?_)⟩
      rw [QueueLists.step, hcall', Option.map_some]

theorem Holds.refines (h : t.1.Holds ls) (hshort : (contents ls).Short) :
    Refines t (contents ls, t.2) where
  queue q := by
    show Option.Rel _ _ (contents ls q)
    cases hq : ls q with
    | none =>
        rw [h.queues_eq_none hq, contents, hq]
        exact .none
    | some l =>
        obtain ⟨queue, hqueue, hholds⟩ := h.exists_queue hq
        rw [hqueue, contents_eq hq]
        exact .some (hholds.standsFor (short_contents_iff.mp hshort q l hq))
  unshared q q' queue queue' r hne hq hq' := by
    obtain ⟨l, hl, hholds⟩ := h.exists_list hq
    obtain ⟨l', hl', hholds'⟩ := h.exists_list hq'
    rw [hholds.chain.reachable_iff, hholds'.chain.reachable_iff]
    rintro ⟨hr, hr'⟩
    exact h.disjoint q q' l l' hl hl' hne hr hr'
  returned := rfl
  returns _ hgiven hc := h.isSome_call hshort hgiven hc

end QueueHeap

/-- A count is below `2 ^ 31`, so that no queue that is as it should be has more nodes. -/
theorem Refines.short {t : QueueHeap α × List (Returned α)} {t' : QueueLists α × List (Returned α)}
    (h : Refines t t') : t'.1.Short := by
  intro q xs hxs
  have hrel := h.queue q
  rw [hxs] at hrel
  generalize t.1.queues q = queue1 at hrel
  cases hrel with
  | @some queue1 _ hstands =>
      obtain ⟨l, hchain, rfl⟩ := hstands.contents
      have hcount := hstands.ok.count
      rw [hchain.ncard_reachable] at hcount
      have hmax := Int32.toInt_lt queue1.n
      rw [List.length_map]
      omega

/-! ## How long the lists get

A call makes a list at most twice as long as the longest, or one longer. -/

namespace QueueLists

variable {lists : QueueLists α} {ret : Returned α × QueueLists α} {c : QueueCall α}
  {xs ys : List (Option α)} {q : QueueRef} {n : Nat}

theorem length_le_of_update (h : ∀ q xs, lists q = some xs → xs.length ≤ n) (hys : ys.length ≤ n) :
    ∀ q' xs, Function.update lists q (some ys) q' = some xs → xs.length ≤ n := by
  intro q' xs hxs
  by_cases hq : q' = q
  · subst hq
    rw [Function.update_self, Option.some.injEq] at hxs
    exact hxs ▸ hys
  · rw [Function.update_of_ne hq] at hxs
    exact h q' xs hxs

theorem length_le_of_call (h : ∀ q xs, lists q = some xs → xs.length ≤ n) (hn : 0 < n)
    (hcall : lists.call c = some ret) : ∀ q xs, ret.2 q = some xs → xs.length ≤ 2 * n := by
  have hle : ∀ q xs, lists q = some xs → xs.length ≤ 2 * n :=
    fun q xs hq ↦ (h q xs hq).trans (Nat.le_mul_of_pos_left n Nat.two_pos)
  match c with
  | .initQueue q =>
      cases hcall
      exact length_le_of_update hle (Nat.zero_le _)
  | .enqueue q x node1 =>
      obtain ⟨xs, hxs, rfl⟩ := Option.map_eq_some_iff.mp hcall
      refine length_le_of_update hle ?_
      have := h q xs hxs
      rw [List.length_append, List.length_singleton]
      omega
  | .dequeue none =>
      cases hcall
      exact hle
  | .dequeue (some q) =>
      obtain ⟨xs, hxs, rfl⟩ := Option.map_eq_some_iff.mp hcall
      match xs with
      | [] => exact hle
      | x :: xs =>
          refine length_le_of_update hle ?_
          have := hle q _ hxs
          rw [List.length_cons] at this
          omega
  | .enqueueAll none _ _ | .enqueueAll (some _) none _ =>
      cases hcall
      exact hle
  | .enqueueAll (some dest) (some src) given =>
      obtain ⟨xs, hxs, hrest⟩ := Option.bind_eq_some_iff.mp hcall
      split at hrest
      · cases hrest
        exact hle
      · obtain ⟨ys, hys, rfl⟩ := Option.map_eq_some_iff.mp hrest
        refine length_le_of_update hle ?_
        have := h src xs hxs
        have := h dest ys hys
        rw [List.length_append]
        omega

theorem length_le_of_run {cs : List (QueueCall α)} {l : QueueLists α × List (Returned α)}
    (hrun : Machine.run step (fun _ ↦ none, []) cs = some l) :
    ∀ q xs, l.1 q = some xs → xs.length ≤ 2 ^ cs.length := by
  refine Machine.invariant_history
    (P := fun cs l ↦ ∀ q xs, l.1 q = some xs → xs.length ≤ 2 ^ cs.length) ?_ hrun
    (fun _ _ h ↦ nomatch h)
  intro cs l c l' h hstep
  obtain ⟨ret, hcall, rfl⟩ := Option.map_eq_some_iff.mp hstep
  rw [List.length_append, List.length_singleton, Nat.pow_succ, Nat.mul_comm]
  exact length_le_of_call h (Nat.two_pow_pos _) hcall

theorem short_of_run {cs : List (QueueCall α)} {l : QueueLists α × List (Returned α)}
    (hrun : Machine.run step (fun _ ↦ none, []) cs = some l) (hcs : cs.length < 31) : l.1.Short :=
  fun q xs hxs ↦ (length_le_of_run hrun q xs hxs).trans_lt (Nat.pow_lt_pow_right (by decide) hcs)

end QueueLists

namespace QueueHeap

/-- `enqueue` is called `k` times for one queue. -/
def enqueueCalls (k : Nat) : List (QueueCall Nat) :=
  .initQueue 0 :: (List.range k).map fun node1 ↦ .enqueue 0 none node1

theorem exists_run_enqueueCalls (k : Nat) : ∃ t ls l,
    Machine.run step (empty, []) (enqueueCalls k) = some t ∧ t.1.Holds ls ∧ ls 0 = some l ∧
      l.length = k ∧ ∀ r, k ≤ r → t.1.nodes r = none := by
  induction k with
  | zero =>
      exact ⟨_, _, [], rfl, holds_empty.initQueue 0, Function.update_self .., rfl, fun _ _ ↦ rfl⟩
  | succ k ih =>
      obtain ⟨t, ls, l, hrun, h, hl, hlen, hfree⟩ := ih
      obtain ⟨m', henqueue, h', hframe⟩ := h.enqueue hl (hfree k (Nat.le_refl k)) none
      have hcalls : enqueueCalls (k + 1) = enqueueCalls k ++ [.enqueue 0 none k] := by
        rw [enqueueCalls, List.range_succ, List.map_append, List.map_singleton, enqueueCalls,
          List.cons_append]
      have hstep : step t (.enqueue 0 none k) = some (m', t.2 ++ [.void]) := by
        rw [step, call, henqueue, Option.map_some, Option.map_some]
      refine ⟨(m', t.2 ++ [.void]), _, _, ?_, h', Function.update_self .., ?_, fun r hr ↦ ?_⟩
      · rw [hcalls]
        exact Machine.run_trans hrun (Machine.run_single hstep)
      · rw [List.length_append, hlen, List.length_singleton]
      · exact hframe r (Nat.ne_of_gt hr) (hfree r (Nat.le_of_succ_le hr))

end QueueHeap

/-! ## The queues behave as lists -/

/-- The queues are as they should be after each call of a sequence if and only if none of them
ever comes to hold `2 ^ 31` elements or more. -/
theorem refines_iff {cs : List (QueueCall α)} {t : QueueHeap α × List (Returned α)}
    (hrun : Machine.run QueueHeap.step (QueueHeap.empty, []) cs = some t) :
    (∀ fs, fs <+: cs → ∀ s, Machine.run QueueHeap.step (QueueHeap.empty, []) fs = some s →
      ∃ l, Machine.run QueueLists.step (fun _ ↦ none, []) fs = some l ∧ Refines s l) ↔
    ∀ fs, fs <+: cs → ∀ l, Machine.run QueueLists.step (fun _ ↦ none, []) fs = some l →
      l.1.Short := by
  constructor
  · rintro h fs ⟨gs, rfl⟩ l hl
    rw [Machine.run_append] at hrun
    obtain ⟨s, hs, -⟩ := Option.bind_eq_some_iff.mp hrun
    obtain ⟨l', hl', hrefines⟩ := h fs (List.prefix_append _ _) s hs
    obtain rfl : l = l' := Option.some.inj (hl.symm.trans hl')
    exact hrefines.short
  · intro h fs hfs s hs
    obtain ⟨ls, hholds, hlists⟩ :=
      QueueHeap.holds_of_run hs fun gs hgs l hl ↦ h gs (hgs.trans hfs) l hl
    exact ⟨_, hlists, hholds.refines (h fs hfs _ hlists)⟩

/-- A queue of one element is appended to itself, and the first of the two is taken. -/
theorem refines_iff_itself : ∃ s l,
    Machine.run QueueHeap.step ((QueueHeap.empty : QueueHeap Nat), []) [.initQueue 0,
      .enqueue 0 (some 7) 3, .enqueueAll (some 0) (some 0) [4], .dequeue (some 0)] = some s ∧
    Machine.run QueueLists.step (fun _ ↦ none, []) [.initQueue 0,
      .enqueue 0 (some 7) 3, .enqueueAll (some 0) (some 0) [4], .dequeue (some 0)] = some l ∧
    Refines s l ∧ l.1 0 = some [some 7] ∧ l.2 = [.void, .void, .count 1, .data (some 7)] := by
  have hrun : Machine.run QueueHeap.step ((QueueHeap.empty : QueueHeap Nat), []) [.initQueue 0,
      .enqueue 0 (some 7) 3, .enqueueAll (some 0) (some 0) [4], .dequeue (some 0)] = some _ := rfl
  obtain ⟨l, hl, hrefines⟩ := (refines_iff hrun).mpr
    (fun fs hfs l hl ↦ QueueLists.short_of_run hl (hfs.length_le.trans_lt (by decide))) _
    List.prefix_rfl _ hrun
  refine ⟨_, l, hrun, hl, hrefines, ?_⟩
  obtain rfl : _ = l := Option.some.inj hl
  exact ⟨rfl, rfl⟩

/-- With `2 ^ 31` elements `n` is not their number. -/
theorem not_refines_overflow : ¬ ∀ (cs : List (QueueCall Nat))
    (t : QueueHeap Nat × List (Returned Nat)),
    Machine.run QueueHeap.step (QueueHeap.empty, []) cs = some t →
      ∃ l, Machine.run QueueLists.step (fun _ ↦ none, []) cs = some l ∧ Refines t l := by
  intro hall
  obtain ⟨t, ls, nodes, hrun, h, hnodes, hlen, -⟩ := QueueHeap.exists_run_enqueueCalls (2 ^ 31)
  obtain ⟨l, -, hrefines⟩ := hall _ t hrun
  obtain ⟨queue, hqueue, hholds⟩ := h.exists_queue hnodes
  have hrel := hrefines.queue 0
  rw [hqueue] at hrel
  generalize l.1 0 = xs at hrel
  cases hrel with
  | some hstands =>
      have hcount := hstands.ok.count
      rw [hholds.chain.ncard_reachable, hlen] at hcount
      have := Int32.toInt_lt queue.n
      omega

end BitTorrent
