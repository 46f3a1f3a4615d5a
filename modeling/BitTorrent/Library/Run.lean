import Mathlib.Data.List.Induction
import Mathlib.Logic.Relation

/-!
# Runs of a machine driven by events

A *machine* is a partial function `step : σ → α → Option σ`: the event `e` is
enabled at `s` exactly when `step s e` is a value, and then it leads to that
one state.  Nondeterminism is in the choice of the event, so a schedule, that
is a list of events, determines the states it passes through.

The file collects the rules the rest of the development uses: invariants, runs
all of whose steps meet a condition, and forward simulations.
-/

universe u v w x

namespace Machine

variable {σ : Type u} {α : Type v}

/-- The state a schedule leads to, if each of its events is enabled in turn. -/
def run (step : σ → α → Option σ) : σ → List α → Option σ
  | s, [] => some s
  | s, e :: es => (step s e).bind fun t ↦ run step t es

/-- `t` is reached from `s` by some schedule. -/
def Reaches (step : σ → α → Option σ) (s t : σ) : Prop := ∃ es, run step s es = some t

/-- `t` is reached from `s` by a schedule of events that all meet `allowed`. -/
def ReachesBy (step : σ → α → Option σ) (allowed : α → Prop) (s t : σ) : Prop :=
  ∃ es, (∀ e ∈ es, allowed e) ∧ run step s es = some t

/-- Every step of the schedule meets `ok`, a condition on the event and on the
state before it. -/
def Along (step : σ → α → Option σ) (ok : σ → α → Prop) : σ → List α → Prop
  | _, [] => True
  | s, e :: es => ok s e ∧ ∀ t, step s e = some t → Along step ok t es

variable {step : σ → α → Option σ} {ok : σ → α → Prop} {s t u : σ} {e : α} {es fs : List α}

/-! ## Composing runs -/

@[simp] theorem run_nil : run step s [] = some s := rfl

@[simp] theorem run_cons : run step s (e :: es) = (step s e).bind fun t ↦ run step t es := rfl

@[simp] theorem along_nil : Along step ok s [] := trivial

theorem along_cons :
    Along step ok s (e :: es) ↔ ok s e ∧ ∀ t, step s e = some t → Along step ok t es := Iff.rfl

/-- A nonempty run exposes its first step. -/
theorem run_cons_eq_some :
    run step s (e :: es) = some u ↔ ∃ t, step s e = some t ∧ run step t es = some u := by
  rw [run_cons, Option.bind_eq_some_iff]

theorem run_single (h : step s e = some t) : run step s [e] = some t := by
  rw [run_cons, h]
  rfl

/-- Schedules concatenate. -/
theorem run_append : run step s (es ++ fs) = (run step s es).bind fun t ↦ run step t fs := by
  induction es generalizing s with
  | nil => rfl
  | cons e es ih =>
      rw [List.cons_append, run_cons, run_cons]
      cases step s e with
      | none => rfl
      | some t => exact ih

theorem run_trans (h : run step s es = some t) (h' : run step t fs = some u) :
    run step s (es ++ fs) = some u := by
  rw [run_append, h]
  exact h'

theorem Reaches.refl (s : σ) : Reaches step s s := ⟨[], rfl⟩

theorem Reaches.trans (h : Reaches step s t) (h' : Reaches step t u) : Reaches step s u := by
  obtain ⟨es, hes⟩ := h
  obtain ⟨fs, hfs⟩ := h'
  exact ⟨es ++ fs, run_trans hes hfs⟩

theorem Reaches.single (h : step s e = some t) : Reaches step s t := ⟨[e], run_single h⟩

section ReachesBy

variable {allowed : α → Prop}

theorem ReachesBy.refl (s : σ) : ReachesBy step allowed s s := ⟨[], by simp, rfl⟩

theorem ReachesBy.trans (h : ReachesBy step allowed s t) (h' : ReachesBy step allowed t u) :
    ReachesBy step allowed s u := by
  obtain ⟨es, hes, hrun⟩ := h
  obtain ⟨fs, hfs, hrun'⟩ := h'
  refine ⟨es ++ fs, fun e he ↦ ?_, run_trans hrun hrun'⟩
  rcases List.mem_append.mp he with h | h
  · exact hes e h
  · exact hfs e h

theorem ReachesBy.single (he : allowed e) (h : step s e = some t) : ReachesBy step allowed s t :=
  ⟨[e], fun _ hmem ↦ List.mem_singleton.mp hmem ▸ he, run_single h⟩

/-- One more event in front. -/
theorem ReachesBy.head (he : allowed e) (h : step s e = some t) (h' : ReachesBy step allowed t u) :
    ReachesBy step allowed s u := (ReachesBy.single he h).trans h'

theorem ReachesBy.reaches (h : ReachesBy step allowed s t) : Reaches step s t := by
  obtain ⟨es, -, hrun⟩ := h
  exact ⟨es, hrun⟩

end ReachesBy

/-! ## Invariants -/

/-- What every step meeting `ok` preserves holds at the end of a run all of
whose steps meet `ok`. -/
theorem invariant_along {P : σ → Prop}
    (hstep : ∀ s e t, P s → ok s e → step s e = some t → P t)
    (hok : Along step ok s es) (hrun : run step s es = some t) (hs : P s) : P t := by
  induction es generalizing s with
  | nil =>
      cases hrun
      exact hs
  | cons e es ih =>
      obtain ⟨r, hr, hrest⟩ := run_cons_eq_some.mp hrun
      exact ih (hok.2 r hr) hrest (hstep s e r hs hok.1 hr)

/-- What every step preserves holds at the end of every run. -/
theorem invariant {P : σ → Prop} (hstep : ∀ s e t, P s → step s e = some t → P t)
    (hrun : run step s es = some t) (hs : P s) : P t := by
  induction es generalizing s with
  | nil =>
      cases hrun
      exact hs
  | cons e es ih =>
      obtain ⟨r, hr, hrest⟩ := run_cons_eq_some.mp hrun
      exact ih hrest (hstep s e r hs hr)

/-- What every step preserves that may speak of the events so far. -/
theorem invariant_history {P : List α → σ → Prop}
    (hstep : ∀ es s e t, P es s → step s e = some t → P (es ++ [e]) t)
    (hrun : run step s es = some t) (hs : P [] s) : P es t := by
  induction es using List.reverseRecOn generalizing t with
  | nil =>
      cases hrun
      exact hs
  | append_singleton es e ih =>
      rw [run_append] at hrun
      obtain ⟨r, hr, hlast⟩ := Option.bind_eq_some_iff.mp hrun
      obtain ⟨t', hlast, hnil⟩ := run_cons_eq_some.mp hlast
      cases hnil
      exact hstep es r e t (ih hr) hlast

/-- What every step by an allowed event preserves. -/
theorem ReachesBy.invariant {P : σ → Prop} {allowed : α → Prop} (h : ReachesBy step allowed s t)
    (hstep : ∀ s e t, P s → allowed e → step s e = some t → P t) (hs : P s) : P t := by
  obtain ⟨es, hes, hrun⟩ := h
  induction es generalizing s with
  | nil =>
      cases hrun
      exact hs
  | cons e es ih =>
      obtain ⟨r, hr, hrest⟩ := run_cons_eq_some.mp hrun
      exact ih (hstep s e r hs (hes e (List.mem_cons_self ..)) hr)
        (fun e' he' ↦ hes e' (List.mem_cons_of_mem _ he')) hrest

theorem Reaches.invariant {P : σ → Prop} (h : Reaches step s t)
    (hstep : ∀ s e t, P s → step s e = some t → P t) (hs : P s) : P t := by
  obtain ⟨es, hes⟩ := h
  exact Machine.invariant hstep hes hs

/-! ## Conditions along a run -/

/-- Along a run that leads somewhere, the condition is one on its first step
and on the rest of it. -/
theorem along_cons_of_step (h : step s e = some t) :
    Along step ok s (e :: es) ↔ ok s e ∧ Along step ok t es := by
  rw [along_cons, h]
  simp

/-- Along a schedule that keeps an invariant, what the invariant implies of a step holds too. -/
theorem Along.imp {I : σ → Prop} {ok' : σ → α → Prop}
    (hkeep : ∀ s e t, I s → ok s e → step s e = some t → I t)
    (himp : ∀ s e, I s → ok s e → ok' s e) (h : Along step ok s es) (hs : I s) :
    Along step ok' s es := by
  induction es generalizing s with
  | nil => exact along_nil
  | cons e es ih =>
      obtain ⟨hok, hrest⟩ := h
      exact ⟨himp s e hs hok, fun t ht ↦ ih (hrest t ht) (hkeep s e t hs hok ht)⟩

/-- What an invariant implies of every step holds along every schedule. -/
theorem along_of_invariant {I : σ → Prop} (hkeep : ∀ s e t, I s → step s e = some t → I t)
    (hok : ∀ s e, I s → ok s e) (hs : I s) : Along step ok s es := by
  induction es generalizing s with
  | nil => exact along_nil
  | cons e es ih => exact ⟨hok s e hs, fun t ht ↦ ih (hkeep s e t hs ht)⟩

/-- A condition on the events alone. -/
theorem along_events_iff {allowed : α → Prop} (hrun : run step s es = some t) :
    Along step (fun _ e ↦ allowed e) s es ↔ ∀ e ∈ es, allowed e := by
  induction es generalizing s with
  | nil => simp
  | cons e es ih =>
      obtain ⟨r, hr, hrest⟩ := run_cons_eq_some.mp hrun
      rw [along_cons_of_step hr, ih hrest, List.forall_mem_cons]

/-- Events that meet the condition in every state. -/
theorem along_of_events (h : ∀ e ∈ es, ∀ s, ok s e) : Along step ok s es := by
  induction es generalizing s with
  | nil => exact along_nil
  | cons e es ih =>
      obtain ⟨he, hes⟩ := List.forall_mem_cons.mp h
      exact ⟨he s, fun t _ ↦ ih hes⟩

theorem along_append (h : run step s es = some t) :
    Along step ok s (es ++ fs) ↔ Along step ok s es ∧ Along step ok t fs := by
  induction es generalizing s with
  | nil =>
      cases h
      simp
  | cons e es ih =>
      obtain ⟨r, hr, hrest⟩ := run_cons_eq_some.mp h
      rw [List.cons_append, along_cons_of_step hr, along_cons_of_step hr, ih hrest, and_assoc]

/-- Two conditions that agree on the steps by allowed events from states satisfying an
invariant hold along the same runs of such events. -/
theorem along_congr_of_allowed {P : σ → Prop} {allowed : α → Prop} {ok' : σ → α → Prop}
    (hstep : ∀ s e t, P s → allowed e → step s e = some t → P t)
    (hiff : ∀ s e t, P s → allowed e → step s e = some t → (ok s e ↔ ok' s e))
    (hall : ∀ e ∈ es, allowed e) (hrun : run step s es = some t) (hs : P s) :
    Along step ok s es ↔ Along step ok' s es := by
  induction es generalizing s with
  | nil => simp
  | cons e es ih =>
      obtain ⟨r, hr, hrest⟩ := run_cons_eq_some.mp hrun
      have he : allowed e := hall e (List.mem_cons_self ..)
      rw [along_cons_of_step hr, along_cons_of_step hr, hiff s e r hs he hr,
        ih (fun e' he' ↦ hall e' (List.mem_cons_of_mem _ he')) hrest (hstep s e r hs he hr)]

/-- Two conditions that agree on the steps from states satisfying an invariant
hold along the same runs. -/
theorem along_congr {P : σ → Prop} {ok' : σ → α → Prop}
    (hstep : ∀ s e t, P s → step s e = some t → P t)
    (hiff : ∀ s e t, P s → step s e = some t → (ok s e ↔ ok' s e))
    (hrun : run step s es = some t) (hs : P s) : Along step ok s es ↔ Along step ok' s es :=
  along_congr_of_allowed (fun s e t h (_ : True) ↦ hstep s e t h) (fun s e t h _ ↦ hiff s e t h)
    (fun _ _ ↦ trivial) hrun hs

/-- A condition on the steps that keeps an invariant, and that a step to a good state
always meets, is the exact one: it holds along a run if and only if every state the
run passes through is good. -/
theorem along_iff_good {I P : σ → Prop} (hgood : ∀ s, I s → P s)
    (hkeep : ∀ s e t, I s → step s e = some t → ok s e → I t)
    (hneeds : ∀ s e t, I s → step s e = some t → P t → ok s e)
    (hrun : run step s es = some u) (hs : I s) :
    (∀ fs, fs <+: es → ∀ t, run step s fs = some t → P t) ↔ Along step ok s es := by
  induction es generalizing s with
  | nil =>
      refine ⟨fun _ ↦ along_nil, ?_⟩
      rintro - fs hfs t ht
      rw [List.prefix_nil.mp hfs] at ht
      cases ht
      exact hgood s hs
  | cons e es ih =>
      obtain ⟨r, hr, hrest⟩ := run_cons_eq_some.mp hrun
      rw [along_cons_of_step hr]
      constructor
      · intro h
        have hok : ok s e :=
          hneeds s e r hs hr (h [e] (List.prefix_append [e] es) r (run_single hr))
        refine ⟨hok, (ih hrest (hkeep s e r hs hr hok)).mp fun fs hfs t ht ↦ ?_⟩
        exact h (e :: fs) ((List.prefix_cons_inj e).mpr hfs) t (run_cons_eq_some.mpr ⟨r, hr, ht⟩)
      · rintro ⟨hok, halong⟩ fs hfs t ht
        cases fs with
        | nil =>
            cases ht
            exact hgood s hs
        | cons e' fs =>
            obtain ⟨rfl, htail⟩ := List.cons_prefix_cons.mp hfs
            obtain ⟨r', hr', ht⟩ := run_cons_eq_some.mp ht
            rw [hr, Option.some.injEq] at hr'
            subst hr'
            exact (ih hrest (hkeep s e' r hs hr hok)).mpr halong fs htail t ht

/-! ## Counting steps -/

section Counting

variable {p : σ → α → Prop} [∀ s e, Decidable (p s e)]

/-- How many steps of a schedule meet a condition on the event and on the state before it. -/
def stepsMeeting (step : σ → α → Option σ) (p : σ → α → Prop) [∀ s e, Decidable (p s e)] :
    σ → List α → Nat
  | _, [] => 0
  | s, e :: es =>
      (if p s e then 1 else 0) +
        match step s e with
        | none => 0
        | some t => stepsMeeting step p t es

theorem stepsMeeting_cons_of_step (h : step s e = some t) :
    stepsMeeting step p s (e :: es) = (if p s e then 1 else 0) + stepsMeeting step p t es := by
  rw [stepsMeeting, h]

/-- A measure that grows by one with every step that meets the condition, and stays as it is
with any other, counts them. -/
theorem stepsMeeting_add {I : σ → Prop} {μ : σ → Nat}
    (hkeep : ∀ s e t, I s → step s e = some t → I t)
    (hμ : ∀ s e t, I s → step s e = some t → μ t = μ s + if p s e then 1 else 0)
    (hrun : run step s es = some u) (hs : I s) : stepsMeeting step p s es + μ s = μ u := by
  induction es generalizing s with
  | nil =>
      cases hrun
      exact Nat.zero_add _
  | cons e es ih =>
      obtain ⟨t, ht, hrest⟩ := run_cons_eq_some.mp hrun
      rw [stepsMeeting_cons_of_step ht, ← ih hrest (hkeep s e t hs ht), hμ s e t hs ht]
      omega

end Counting

/-! ## Simulation -/

/-- If each step of one machine is matched by a run of another, so is each run. -/
theorem simulation {τ : Type w} {β : Type x} {step' : τ → β → Option τ} {R : σ → τ → Prop}
    (hsim : ∀ s e t s', R s s' → step s e = some t → ∃ t', Reaches step' s' t' ∧ R t t')
    {s' : τ} (hR : R s s') (h : Reaches step s t) : ∃ t', Reaches step' s' t' ∧ R t t' := by
  obtain ⟨es, hes⟩ := h
  induction es generalizing s s' with
  | nil =>
      cases hes
      exact ⟨s', .refl s', hR⟩
  | cons e es ih =>
      obtain ⟨r, hr, hrest⟩ := run_cons_eq_some.mp hes
      obtain ⟨r', hr', hRr⟩ := hsim s e r s' hR hr
      obtain ⟨t', ht', hRt⟩ := ih hRr hrest
      exact ⟨t', hr'.trans ht', hRt⟩

/-- The same with the events that are allowed on either side. -/
theorem ReachesBy.simulation {τ : Type w} {β : Type x} {step' : τ → β → Option τ}
    {R : σ → τ → Prop} {allowed : α → Prop} {allowed' : β → Prop}
    (hsim : ∀ s e t s', R s s' → allowed e → step s e = some t →
      ∃ t', ReachesBy step' allowed' s' t' ∧ R t t')
    {s' : τ} (hR : R s s') (h : ReachesBy step allowed s t) :
    ∃ t', ReachesBy step' allowed' s' t' ∧ R t t' := by
  obtain ⟨es, hes, hrun⟩ := h
  induction es generalizing s s' with
  | nil =>
      cases hrun
      exact ⟨s', .refl s', hR⟩
  | cons e es ih =>
      obtain ⟨r, hr, hrest⟩ := run_cons_eq_some.mp hrun
      obtain ⟨he, hes⟩ := List.forall_mem_cons.mp hes
      obtain ⟨r', hr', hRr⟩ := hsim s e r s' hR he hr
      obtain ⟨t', ht', hRt⟩ := ih hRr hes hrest
      exact ⟨t', hr'.trans ht', hRt⟩

end Machine
