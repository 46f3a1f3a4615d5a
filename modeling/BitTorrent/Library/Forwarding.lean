import Mathlib.Algebra.BigOperators.Group.List.Basic
import Mathlib.Algebra.GroupWithZero.Nat
import Mathlib.Logic.Basic
import BitTorrent.Library.Run

/-!
# Store-and-forward networks

Packets travel from node to node along links, each of which is a queue, and may be lost
wherever they would be queued.  A table gives the next node on the way to each
destination.  If it always leads closer to the destination, then the packets from one
node to another are delivered in the order in which they were sent, and none of them
twice: at any time, what was delivered, followed by what is queued along the way, the
last link first, is what was sent, less some packets (`Net.Ordered`).
-/

universe u v

namespace Forwarding

variable {V : Type u} {P : Type v}

/-- Where packets come from, where they go, and the next node on the way from one node to
another. -/
structure Routing (V : Type u) (P : Type v) where
  src : P → V
  dest : P → V
  next : V → V → V

/-- `rank v d` is the number of hops from `v` to `d`. -/
structure Routing.Ranked (π : Routing V P) (rank : V → V → ℕ) : Prop where
  self : ∀ d, rank d d = 0
  next : ∀ v d, v ≠ d → rank (π.next v d) d + 1 = rank v d

/-- A node on the way from another to `d`. -/
inductive Routing.OnWay (π : Routing V P) (d : V) : V → V → Prop
  | refl (v : V) : OnWay π d v v
  | next {v a : V} : v ≠ d → OnWay π d (π.next v d) a → OnWay π d v a

namespace Routing.OnWay

variable {π : Routing V P} {rank : V → V → ℕ} {d v a : V}

/-- One hop more. -/
theorem snoc (h : π.OnWay d v a) (ha : a ≠ d) : π.OnWay d v (π.next a d) := by
  induction h with
  | refl v => exact .next ha (.refl _)
  | next hv _ ih => exact .next hv (ih ha)

theorem rank_le (h : π.OnWay d v a) (hrank : π.Ranked rank) : rank a d ≤ rank v d := by
  induction h with
  | refl v => exact Nat.le_refl _
  | next hv _ ih => exact Nat.le_trans ih (Nat.le_of_succ_le (Nat.le_of_eq (hrank.next _ _ hv)))

end Routing.OnWay

/-- A link, by the nodes at its ends. -/
abbrev Link (V : Type u) : Type u := V × V

/-- The packets that were sent, those on a link, the oldest first, those that were lost,
with the link on which they should have gone, and those that were delivered. -/
structure Net (V : Type u) (P : Type v) where
  sent : List P
  transit : List (Link V × P)
  lost : List (Link V × P)
  delivered : List P

/-- What can happen in a network: a packet is sent, or the oldest one on a link comes to
its end; `lose` says that it is lost where it would be queued. -/
inductive Event (V : Type u) (P : Type v) where
  | send (p : P) (lose : Bool)
  | hop (e : Link V) (lose : Bool)

/-- An event that sends nothing. -/
def Event.isHop : Event V P → Bool
  | .send .. => false
  | .hop .. => true

namespace Net

variable [DecidableEq V]

/-- The network before anything is sent. -/
def empty : Net V P := ⟨[], [], [], []⟩

/-- The packets on a link, the oldest first. -/
def queue (n : Net V P) (e : Link V) : List P := (n.transit.filter (·.1 = e)).map Prod.snd

/-- A packet comes to a node. -/
def arrive (π : Routing V P) (n : Net V P) (v : V) (p : P) (lose : Bool) : Net V P :=
  if π.dest p = v then { n with delivered := n.delivered ++ [p] }
  else if lose then { n with lost := n.lost ++ [((v, π.next v (π.dest p)), p)] }
  else { n with transit := n.transit ++ [((v, π.next v (π.dest p)), p)] }

/-- The network without the oldest packet on a link. -/
def pop (n : Net V P) (e : Link V) : Net V P :=
  { n with transit := n.transit.eraseP (·.1 = e) }

/-- The steps of a network. -/
def step (π : Routing V P) (n : Net V P) : Event V P → Option (Net V P)
  | .send p lose => some (arrive π { n with sent := n.sent ++ [p] } (π.src p) p lose)
  | .hop e lose =>
      match n.queue e with
      | [] => none
      | p :: _ => some (arrive π (n.pop e) e.2 p lose)

/-! ## What a step does -/

section Cases

variable {π : Routing V P} {n : Net V P} {v : V} {p : P} {lose : Bool} {e : Link V}

/-- A packet that comes to a node is delivered, lost or queued. -/
theorem arrive_cases (π : Routing V P) (n : Net V P) (v : V) (p : P) (lose : Bool) :
    (π.dest p = v ∧ n.arrive π v p lose = { n with delivered := n.delivered ++ [p] }) ∨
      (π.dest p ≠ v ∧
        n.arrive π v p lose = { n with lost := n.lost ++ [((v, π.next v (π.dest p)), p)] }) ∨
      (π.dest p ≠ v ∧
        n.arrive π v p lose =
          { n with transit := n.transit ++ [((v, π.next v (π.dest p)), p)] }) := by
  by_cases hd : π.dest p = v
  · exact .inl ⟨hd, if_pos hd⟩
  · rw [arrive, if_neg hd]
    cases lose with
    | true => exact .inr (.inl ⟨hd, rfl⟩)
    | false => exact .inr (.inr ⟨hd, rfl⟩)

/-- The oldest packet on a link, among those in transit. -/
theorem exists_of_queue_eq {ps : List P} (h : n.queue e = p :: ps) :
    ∃ l r, n.transit = l ++ (e, p) :: r ∧ (∀ x ∈ l, x.1 ≠ e) ∧ (n.pop e).transit = l ++ r := by
  rw [queue, List.map_eq_cons_iff] at h
  obtain ⟨⟨e', p'⟩, rest, hfilter, rfl, -⟩ := h
  obtain ⟨l, r, htransit, hl, he, -⟩ := List.filter_eq_cons_iff.mp hfilter
  rw [decide_eq_true_eq] at he
  obtain rfl : e' = e := he
  have hl : ∀ x ∈ l, ¬ decide (x.1 = e') = true := hl
  refine ⟨l, r, htransit, fun x hx hxe ↦ hl x hx (decide_eq_true hxe), ?_⟩
  rw [pop, htransit]
  simp only
  rw [List.eraseP_append_right _ hl]
  simp

@[simp] theorem sent_arrive (π : Routing V P) (n : Net V P) (v : V) (p : P) (lose : Bool) :
    (n.arrive π v p lose).sent = n.sent := by
  rcases arrive_cases π n v p lose with ⟨-, heq⟩ | ⟨-, heq⟩ | ⟨-, heq⟩ <;> rw [heq]

@[simp] theorem queue_append (n : Net V P) (e e' : Link V) (p : P) :
    queue { n with transit := n.transit ++ [(e, p)] } e' =
      n.queue e' ++ if e = e' then [p] else [] := by
  rw [queue, List.filter_append, List.map_append, queue]
  split
  · next h =>
      subst h
      simp
  · next h =>
      rw [List.filter_cons_of_neg (by simpa using h)]
      rfl

/-- Taking a packet from a link leaves the others on it, and the other links as they are. -/
theorem queue_pop {ps : List P} (h : n.queue e = p :: ps) (e' : Link V) :
    n.queue e' = (if e = e' then [p] else []) ++ (n.pop e).queue e' := by
  obtain ⟨l, r, htransit, hl, hpop⟩ := exists_of_queue_eq h
  rw [queue, queue, hpop, htransit, List.filter_append, List.filter_append]
  split
  · next heq =>
      subst heq
      have hnil : l.filter (fun x ↦ decide (x.1 = e)) = [] := by
        simpa using hl
      simp [hnil]
  · next hne =>
      rw [List.filter_cons_of_neg (by simpa using hne)]
      rfl

/-- Where a packet comes to a node, no queue changes but the one it goes to. -/
theorem queue_arrive_of_ne (lose : Bool) {e : Link V} (h : e ≠ (v, π.next v (π.dest p))) :
    (n.arrive π v p lose).queue e = n.queue e := by
  rcases arrive_cases π n v p lose with ⟨-, heq⟩ | ⟨-, heq⟩ | ⟨-, heq⟩
  · rw [heq]
    rfl
  · rw [heq]
    rfl
  · rw [heq, queue_append, if_neg h.symm, List.append_nil]

/-- Packets that a test refuses make no difference to those it accepts. -/
theorem filter_queue_arrive (n : Net V P) (v : V) (lose : Bool) {f : P → Bool} (h : f p = false)
    (e : Link V) : ((n.arrive π v p lose).queue e).filter f = (n.queue e).filter f := by
  by_cases he : e = (v, π.next v (π.dest p))
  · rcases arrive_cases π n v p lose with ⟨-, heq⟩ | ⟨-, heq⟩ | ⟨-, heq⟩
    · rw [heq]
      rfl
    · rw [heq]
      rfl
    · rw [heq, queue_append, if_pos he.symm, List.filter_append]
      simp [h]
  · rw [queue_arrive_of_ne lose he]

theorem filter_delivered_arrive (n : Net V P) (v : V) (lose : Bool) {f : P → Bool}
    (h : f p = false) : (n.arrive π v p lose).delivered.filter f = n.delivered.filter f := by
  rcases arrive_cases π n v p lose with ⟨-, heq⟩ | ⟨-, heq⟩ | ⟨-, heq⟩
  · rw [heq, List.filter_append]
    simp [h]
  · rw [heq]
  · rw [heq]

end Cases

/-! ## The order of a flow -/

section Order

variable {π : Routing V P} {rank : V → V → ℕ} {n n' : Net V P} {s d v a : V}

/-- The packets from `s` to `d`. -/
def flow (π : Routing V P) (s d : V) (p : P) : Bool := decide (π.src p = s ∧ π.dest p = d)

/-- What is queued, of the packets from `s` to `d`, on the first `k` links from `v` on, the
farthest first. -/
def ahead (π : Routing V P) (n : Net V P) (s d : V) : ℕ → V → List P
  | 0, _ => []
  | k + 1, v => ahead π n s d k (π.next v d) ++ (n.queue (v, π.next v d)).filter (flow π s d)

theorem ahead_self (h : π.Ranked rank) (n : Net V P) (s d : V) :
    n.ahead π s d (rank d d) d = [] := by
  rw [h.self d, ahead]

theorem ahead_eq (h : π.Ranked rank) (n : Net V P) (s : V) (hv : v ≠ d) :
    n.ahead π s d (rank v d) v =
      n.ahead π s d (rank (π.next v d) d) (π.next v d) ++
        (n.queue (v, π.next v d)).filter (flow π s d) := by
  rw [← h.next v d hv, ahead]

/-- Only the links from nodes as close to `d` count. -/
theorem ahead_congr (h : π.Ranked rank)
    (heq : ∀ w, rank w d ≤ rank v d → (n'.queue (w, π.next w d)).filter (flow π s d) =
      (n.queue (w, π.next w d)).filter (flow π s d)) :
    n'.ahead π s d (rank v d) v = n.ahead π s d (rank v d) v := by
  generalize hk : rank v d = k at heq ⊢
  induction k generalizing v with
  | zero => rfl
  | succ k ih =>
      have hv : v ≠ d := fun hv ↦ by
        rw [hv, h.self] at hk
        exact Nat.noConfusion hk
      have hnext : rank (π.next v d) d = k := Nat.succ.inj ((h.next v d hv).trans hk)
      rw [ahead, ahead, heq v (Nat.le_of_eq hk), ih hnext fun w hw ↦ heq w (Nat.le_succ_of_le hw)]

/-- The flow from `s` to `d` as it comes to `v`, with a packet that comes there now. -/
theorem ahead_arrive (h : π.Ranked rank) (n : Net V P) (v : V) (lose : Bool) {p : P}
    (hp : flow π s d p = true) :
    ((n.arrive π v p lose).delivered.filter (flow π s d) ++
        (n.arrive π v p lose).ahead π s d (rank v d) v).Sublist
      (n.delivered.filter (flow π s d) ++ n.ahead π s d (rank v d) v ++ [p]) := by
  have hdest : π.dest p = d := (of_decide_eq_true hp).2
  rcases arrive_cases π n v p lose with ⟨hv, heq⟩ | ⟨-, heq⟩ | ⟨hv, heq⟩
  · obtain rfl : d = v := hdest.symm.trans hv
    rw [ahead_self h, ahead_self h, List.append_nil, List.append_nil, heq, List.filter_append]
    simp [hp]
  · have hfar : (n.arrive π v p lose).ahead π s d (rank v d) v = n.ahead π s d (rank v d) v :=
      ahead_congr h fun w _ ↦ by
        rw [heq]
        rfl
    rw [hfar, heq]
    exact List.sublist_append_left _ _
  · rw [hdest] at hv
    have hfar : (n.arrive π v p lose).ahead π s d (rank (π.next v d) d) (π.next v d) =
        n.ahead π s d (rank (π.next v d) d) (π.next v d) := by
      refine ahead_congr h fun w hw ↦ ?_
      have hne : (w, π.next w d) ≠ (v, π.next v (π.dest p)) := fun hc ↦ by
        have hrank := h.next v d hv.symm
        rw [(Prod.mk.inj hc).1] at hw
        omega
      rw [queue_arrive_of_ne lose hne]
    rw [ahead_eq h _ s hv.symm, ahead_eq h _ s hv.symm, hfar, heq, hdest, queue_append,
      if_pos rfl, List.filter_append]
    simp [hp]

end Order

/-! ## Runs -/

section Run

variable {π : Routing V P} {rank : V → V → ℕ} {n n' : Net V P} {e : Event V P}
  {es : List (Event V P)} {s d : V}

/-- Every packet in transit is on the link that the table gives, on its way. -/
def Placed (π : Routing V P) (n : Net V P) : Prop :=
  ∀ x ∈ n.transit, x.1 = (x.1.1, π.next x.1.1 (π.dest x.2)) ∧ x.1.1 ≠ π.dest x.2 ∧
    π.OnWay (π.dest x.2) (π.src x.2) x.1.1

/-- The packets from one node to another that were delivered, and then those on the way,
are some of those that were sent, in their order. -/
def Ordered (π : Routing V P) (rank : V → V → ℕ) (n : Net V P) : Prop :=
  ∀ s d, (n.delivered.filter (flow π s d) ++ n.ahead π s d (rank s d) s).Sublist
    (n.sent.filter (flow π s d))

/-- Every packet that was sent was delivered or lost, or is in transit. -/
def Accounted (n : Net V P) : Prop :=
  n.sent.Perm (n.delivered ++ n.lost.map Prod.snd ++ n.transit.map Prod.snd)

/-- The hops that the packets in transit have before them. -/
def work (π : Routing V P) (rank : V → V → ℕ) (n : Net V P) : ℕ :=
  (n.transit.map fun x ↦ rank x.1.1 (π.dest x.2)).sum

theorem placed_arrive (h : n.Placed π) {v : V} {p : P} (hway : π.OnWay (π.dest p) (π.src p) v)
    (lose : Bool) : (n.arrive π v p lose).Placed π := by
  rcases arrive_cases π n v p lose with ⟨-, heq⟩ | ⟨-, heq⟩ | ⟨hv, heq⟩
  · rw [heq]
    exact h
  · rw [heq]
    exact h
  · rw [heq]
    intro x hx
    rcases List.mem_append.mp hx with hx | hx
    · exact h x hx
    · rw [List.mem_singleton.mp hx]
      exact ⟨rfl, hv.symm, hway⟩

theorem placed_step (h : n.Placed π) (hstep : step π n e = some n') : n'.Placed π := by
  cases e with
  | send p lose =>
      obtain rfl := Option.some.inj hstep
      exact placed_arrive (n := { n with sent := n.sent ++ [p] }) h (.refl _) lose
  | hop e lose =>
      rw [step] at hstep
      split at hstep
      · cases hstep
      · next p ps hqueue =>
          obtain rfl := Option.some.inj hstep
          obtain ⟨l, r, htransit, -, hpop⟩ := exists_of_queue_eq hqueue
          have hmem : (e, p) ∈ n.transit :=
            htransit ▸ List.mem_append_right _ List.mem_cons_self
          obtain ⟨he, hne, hway⟩ := h _ hmem
          refine placed_arrive (fun x hx ↦ h x ?_) ?_ lose
          · rw [hpop, List.mem_append] at hx
            rw [htransit, List.mem_append, List.mem_cons]
            exact hx.imp_right .inr
          · have hnext := hway.snoc hne
            rwa [show π.next e.1 (π.dest p) = e.2 from (congrArg Prod.snd he).symm] at hnext

/-- A hop keeps the order of each flow: its packet is the last on the link it leaves, and
becomes the first on the next one. -/
theorem ahead_hop (h : π.Ranked rank) {a : V} {p : P} {ps : List P}
    (hqueue : n.queue (a, π.next a d) = p :: ps) (hp : flow π s d p = true) (ha : a ≠ d)
    (lose : Bool) {v : V} (hway : π.OnWay d v a) :
    (((n.pop (a, π.next a d)).arrive π (π.next a d) p lose).delivered.filter (flow π s d) ++
        ((n.pop (a, π.next a d)).arrive π (π.next a d) p lose).ahead π s d (rank v d) v).Sublist
      (n.delivered.filter (flow π s d) ++ n.ahead π s d (rank v d) v) := by
  have hdest : π.dest p = d := (of_decide_eq_true hp).2
  have hrank := h.next a d ha
  have hback : ∀ w, rank (π.next a d) d < rank w d →
      ((n.pop (a, π.next a d)).arrive π (π.next a d) p lose).queue (w, π.next w d) =
        (n.pop (a, π.next a d)).queue (w, π.next w d) := by
    intro w hw
    refine queue_arrive_of_ne lose fun hc ↦ ?_
    rw [(Prod.mk.inj hc).1] at hw
    exact Nat.lt_irrefl _ hw
  have hother : ∀ w, w ≠ a → n.queue (w, π.next w d) =
      (n.pop (a, π.next a d)).queue (w, π.next w d) := by
    intro w hw
    rw [queue_pop hqueue, if_neg fun hc ↦ hw (Prod.mk.inj hc).1.symm, List.nil_append]
  induction hway with
  | refl v =>
      have hfar : (n.pop (v, π.next v d)).ahead π s d (rank (π.next v d) d) (π.next v d) =
          n.ahead π s d (rank (π.next v d) d) (π.next v d) := by
        refine ahead_congr h fun w hw ↦ ?_
        rw [hother w fun hc ↦ ?_]
        rw [hc] at hw
        omega
      have harrive := ahead_arrive h (n.pop (v, π.next v d)) (π.next v d) lose hp
      rw [hfar] at harrive
      rw [ahead_eq h _ s ha, ahead_eq h _ s ha, hback v (by omega), queue_pop hqueue, if_pos rfl,
        List.filter_append, ← List.append_assoc, ← List.append_assoc, ← List.append_assoc]
      refine List.Sublist.append ?_ (List.Sublist.refl _)
      have hlast : [p].filter (flow π s d) = [p] := by simp [hp]
      rw [hlast]
      exact harrive
  | @next v a hv hway ih =>
      have hle := hway.rank_le h
      have hstep := h.next v d hv
      have hva : v ≠ a := fun hc ↦ by
        rw [hc] at hstep hle
        omega
      rw [ahead_eq h _ s hv, ahead_eq h _ s hv, hback v (by omega), ← hother v hva,
        ← List.append_assoc, ← List.append_assoc]
      exact (ih hqueue ha hrank hback hother).append (List.Sublist.refl _)

theorem ordered_step (h : π.Ranked rank) (hplaced : n.Placed π) (hn : n.Ordered π rank)
    (hstep : step π n e = some n') : n'.Ordered π rank := by
  intro s d
  cases e with
  | send p lose =>
      obtain rfl := Option.some.inj hstep
      let m : Net V P := { n with sent := n.sent ++ [p] }
      have hm : ∀ v, m.ahead π s d (rank v d) v = n.ahead π s d (rank v d) v := fun v ↦
        ahead_congr h fun _ _ ↦ rfl
      rw [sent_arrive, List.filter_append]
      cases hp : flow π s d p with
      | true =>
          obtain rfl : π.src p = s := (of_decide_eq_true hp).1
          refine (ahead_arrive h m _ lose hp).trans ?_
          have hlast : [p].filter (flow π (π.src p) d) = [p] := by simp [hp]
          rw [hlast, hm]
          exact (hn (π.src p) d).append (List.Sublist.refl _)
      | false =>
          rw [filter_delivered_arrive m _ lose hp,
            ahead_congr h fun w _ ↦ filter_queue_arrive m _ lose hp _, hm]
          exact (hn s d).trans (List.sublist_append_left _ _)
  | hop e lose =>
      rw [step] at hstep
      split at hstep
      · cases hstep
      · next p ps hqueue =>
          obtain rfl := Option.some.inj hstep
          rw [sent_arrive]
          refine List.Sublist.trans ?_ (hn s d)
          cases hp : flow π s d p with
          | true =>
              obtain ⟨rfl, rfl⟩ := of_decide_eq_true hp
              obtain ⟨l, r, htransit, -, -⟩ := exists_of_queue_eq hqueue
              obtain ⟨he, hne, hway⟩ :=
                hplaced (e, p) (htransit ▸ List.mem_append_right _ List.mem_cons_self)
              obtain ⟨a, b⟩ := e
              obtain rfl : b = π.next a (π.dest p) := congrArg Prod.snd he
              exact ahead_hop h hqueue hp hne lose hway
          | false =>
              have hsame : ((n.pop e).arrive π e.2 p lose).ahead π s d (rank s d) s =
                  n.ahead π s d (rank s d) s := by
                refine ahead_congr h fun w _ ↦ ?_
                rw [filter_queue_arrive _ _ lose hp, queue_pop hqueue, List.filter_append]
                split
                · simp [hp]
                · rfl
              rw [filter_delivered_arrive _ _ lose hp, hsame]
              exact List.Sublist.refl _

/-- A packet that comes to a node is delivered, lost or in transit. -/
theorem accounted_arrive (π : Routing V P) (n : Net V P) (v : V) (p : P) (lose : Bool) :
    ((n.arrive π v p lose).delivered ++ (n.arrive π v p lose).lost.map Prod.snd ++
        (n.arrive π v p lose).transit.map Prod.snd).Perm
      (p :: (n.delivered ++ n.lost.map Prod.snd ++ n.transit.map Prod.snd)) := by
  rcases arrive_cases π n v p lose with ⟨-, heq⟩ | ⟨-, heq⟩ | ⟨-, heq⟩
  · rw [heq, List.append_assoc, List.append_assoc, List.append_assoc, List.singleton_append]
    exact List.perm_middle
  · rw [heq, List.map_append, ← List.append_assoc, List.map_singleton, List.append_assoc _ [p],
      List.singleton_append]
    exact List.perm_middle
  · rw [heq, List.map_append, ← List.append_assoc]
    exact List.perm_append_singleton _ _

theorem accounted_step (hn : n.Accounted) (hstep : step π n e = some n') : n'.Accounted := by
  cases e with
  | send p lose =>
      obtain rfl := Option.some.inj hstep
      have harrive := accounted_arrive π { n with sent := n.sent ++ [p] } (π.src p) p lose
      rw [Accounted, sent_arrive]
      refine List.Perm.trans ?_ harrive.symm
      exact (List.perm_append_singleton p n.sent).trans (hn.cons p)
  | hop e lose =>
      rw [step] at hstep
      split at hstep
      · cases hstep
      · next p ps hqueue =>
          obtain rfl := Option.some.inj hstep
          obtain ⟨l, r, htransit, -, hpop⟩ := exists_of_queue_eq hqueue
          have harrive := accounted_arrive π (n.pop e) e.2 p lose
          rw [Accounted, sent_arrive]
          refine List.Perm.trans hn (List.Perm.trans ?_ harrive.symm)
          rw [htransit, hpop, List.map_append, List.map_append, List.map_cons]
          change (n.delivered ++ n.lost.map Prod.snd ++ (l.map Prod.snd ++ p :: r.map Prod.snd)).Perm
            (p :: (n.delivered ++ n.lost.map Prod.snd ++ (l.map Prod.snd ++ r.map Prod.snd)))
          rw [← List.append_assoc, ← List.append_assoc]
          exact List.perm_middle

/-- What holds of every network that runs. -/
structure Sound (π : Routing V P) (rank : V → V → ℕ) (n : Net V P) : Prop where
  placed : n.Placed π
  ordered : n.Ordered π rank
  accounted : n.Accounted

theorem sound_empty : (empty : Net V P).Sound π rank where
  placed x hx := absurd hx List.not_mem_nil
  ordered s d := by
    have hnone : ∀ k v, (empty : Net V P).ahead π s d k v = [] := by
      intro k
      induction k with
      | zero => exact fun v ↦ rfl
      | succ k ih =>
          intro v
          rw [ahead, ih]
          rfl
    rw [hnone]
    exact List.Sublist.refl _
  accounted := List.Perm.refl _

theorem Sound.step (h : π.Ranked rank) (hn : n.Sound π rank) (hstep : step π n e = some n') :
    n'.Sound π rank :=
  ⟨placed_step hn.placed hstep, ordered_step h hn.placed hn.ordered hstep,
    accounted_step hn.accounted hstep⟩

/-- What was delivered of a flow was sent, in this order, and as often. -/
theorem Sound.delivered_sublist (hn : n.Sound π rank) (s d : V) :
    (n.delivered.filter (flow π s d)).Sublist (n.sent.filter (flow π s d)) :=
  (List.sublist_append_left _ _).trans (hn.ordered s d)

/-! ## The work that is left -/

/-- Nothing that comes to a node brings more work than the hops from there. -/
theorem work_arrive_le (n : Net V P) (v : V) (p : P) (lose : Bool) :
    (n.arrive π v p lose).work π rank ≤ n.work π rank + rank v (π.dest p) := by
  rcases arrive_cases π n v p lose with ⟨-, heq⟩ | ⟨-, heq⟩ | ⟨-, heq⟩
  · rw [heq]
    exact Nat.le_add_right _ _
  · rw [heq]
    exact Nat.le_add_right _ _
  · rw [heq, work, List.map_append, List.sum_append]
    exact Nat.le_refl _

/-- A hop leaves less work. -/
theorem work_hop (h : π.Ranked rank) (hn : n.Placed π) {e : Link V} {lose : Bool}
    (hstep : step π n (.hop e lose) = some n') : n'.work π rank + 1 ≤ n.work π rank := by
  rw [step] at hstep
  split at hstep
  · cases hstep
  · next p ps hqueue =>
      obtain rfl := Option.some.inj hstep
      obtain ⟨l, r, htransit, -, hpop⟩ := exists_of_queue_eq hqueue
      obtain ⟨he, hne, -⟩ := hn (e, p) (htransit ▸ List.mem_append_right _ List.mem_cons_self)
      have hnext : π.next e.1 (π.dest p) = e.2 := (congrArg Prod.snd he).symm
      have hrank := h.next e.1 (π.dest p) hne
      rw [hnext] at hrank
      have harrive : _ ≤ (n.pop e).work π rank + _ := work_arrive_le (n.pop e) e.2 p lose
      have hwork : n.work π rank = (n.pop e).work π rank + rank e.1 (π.dest p) := by
        rw [work, work, htransit, hpop, List.map_append, List.map_append, List.map_cons,
          List.sum_append, List.sum_append, List.sum_cons]
        exact (Nat.add_left_comm ..).trans (Nat.add_comm ..)
      omega

/-- A run takes no more hops than the packets sent in it, and those in transit before it,
have between where they are and where they go. -/
theorem hops_le (h : π.Ranked rank) (hn : n.Placed π) (hrun : Machine.run (step π) n es = some n') :
    es.countP Event.isHop + n'.work π rank + (n.sent.map fun p ↦ rank (π.src p) (π.dest p)).sum ≤
      n.work π rank + (n'.sent.map fun p ↦ rank (π.src p) (π.dest p)).sum := by
  induction es generalizing n with
  | nil =>
      cases hrun
      simp
  | cons e es ih =>
      obtain ⟨m, hm, hrest⟩ := Machine.run_cons_eq_some.mp hrun
      have hstep := ih (placed_step hn hm) hrest
      cases e with
      | send p lose =>
          obtain rfl := Option.some.inj hm
          have hwork : _ ≤ n.work π rank + _ :=
            work_arrive_le { n with sent := n.sent ++ [p] } (π.src p) p lose
          rw [sent_arrive, List.map_append, List.sum_append, List.map_singleton,
            List.sum_singleton] at hstep
          rw [List.countP_cons_of_neg (by exact Bool.false_ne_true)]
          omega
      | hop e lose =>
          have hwork := work_hop h hn hm
          have hsent : m.sent = n.sent := by
            rw [step] at hm
            split at hm
            · cases hm
            · obtain rfl := Option.some.inj hm
              exact sent_arrive ..
          rw [hsent] at hstep
          rw [List.countP_cons_of_pos rfl]
          omega

end Run

end Net

end Forwarding
