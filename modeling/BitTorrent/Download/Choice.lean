import Mathlib.Data.List.MinMax
import BitTorrent.Download.Sharing

/-!
# The choice of a chunk

`choose_chunk_to_download` is to find, among the chunks that can be fetched, one with the
fewest holders.  Its loop compares numbers of holders only, and starts with the head of the
queue whatever that is: a head without holders is never replaced, and otherwise the choice
is the first chunk with the fewest holders, in whatever state it is.
-/

namespace BitTorrent

variable (store : ChunkStore)

/-- The number of holders of a chunk. -/
def numHolders (r : ChunkRef) : Nat := (store r).holders.length

/-- The chunk has at least one holder. -/
def HasHolder (r : ChunkRef) : Prop := (store r).holders ≠ []

instance : DecidablePred (HasHolder store) := fun _ ↦ inferInstanceAs (Decidable (_ ≠ _))

/-- A chunk that can be fetched: it is `READY` and somebody has it. -/
def Fetchable (r : ChunkRef) : Prop := (store r).cState = .ready ∧ HasHolder store r

/-- A chunk of the queue that can be fetched and has the fewest holders of all that can. -/
structure Rarest (queue : List ChunkRef) (r : ChunkRef) : Prop where
  fetchable : Fetchable store r
  fewest : ∀ r' ∈ queue, Fetchable store r' → numHolders store r ≤ numHolders store r'

variable {store} {first : ChunkRef} {queue : List ChunkRef}

/-- A head without holders stays the choice. -/
theorem chooseChunkToDownload_of_no_holder (h : ¬ HasHolder store first) (queue : List ChunkRef) :
    chooseChunkToDownload store first queue = first := by
  have hnil : (store first).holders = [] := not_not.mp h
  rw [chooseChunkToDownload]
  induction queue with
  | nil => rfl
  | cons r queue ih =>
      rw [List.foldl_cons, if_neg]
      · exact ih
      · rw [hnil]
        exact fun hc ↦ Nat.not_lt_zero _ hc.1

/-- From a chunk with a holder on, the loop looks for the first chunk with the fewest among
those that have one. -/
theorem some_chooseChunkToDownload (h : HasHolder store first) (queue : List ChunkRef) :
    some (chooseChunkToDownload store first queue) =
      (queue.filter (HasHolder store)).foldl
        (List.argAux fun r best ↦ numHolders store r < numHolders store best) (some first) := by
  rw [chooseChunkToDownload]
  induction queue generalizing first with
  | nil => rfl
  | cons r queue ih =>
      rw [List.foldl_cons]
      by_cases hr : HasHolder store r
      · rw [List.filter_cons_of_pos (by simpa using hr), List.foldl_cons]
        by_cases hlt : numHolders store r < numHolders store first
        · rw [if_pos ⟨hlt, hr⟩, ih hr, List.argAux]
          simp only [hlt, if_true]
        · rw [if_neg fun hc ↦ hlt hc.1, ih h, List.argAux]
          simp only [hlt, if_false]
      · rw [List.filter_cons_of_neg (by simpa using hr), if_neg fun hc ↦ hr hc.2, ih h]

/-- So with a holder for the head the choice is that chunk. -/
theorem argmin_eq_chooseChunkToDownload (h : HasHolder store first) (rest : List ChunkRef) :
    ((first :: rest).filter (HasHolder store)).argmin (numHolders store) =
      some (chooseChunkToDownload store first (first :: rest)) := by
  have hself : List.argAux (fun r best ↦ numHolders store r < numHolders store best) (some first)
      first = some first := if_neg (Nat.lt_irrefl _)
  rw [some_chooseChunkToDownload h, List.filter_cons_of_pos (by simpa using h), List.foldl_cons, hself]
  rfl

/-- The chunk chosen can be fetched and has the fewest holders of all that can, exactly if the
head of the queue has a holder and the first chunk with the fewest holders, among those that
have any, is `READY`. -/
theorem choose_rarest_iff (store : ChunkStore) (first : ChunkRef) (rest : List ChunkRef) :
    Rarest store (first :: rest) (chooseChunkToDownload store first (first :: rest)) ↔
      HasHolder store first ∧
      ∃ r, ((first :: rest).filter (HasHolder store)).argmin (numHolders store) = some r ∧
        (store r).cState = .ready := by
  constructor
  · rintro ⟨⟨hready, hholder⟩, -⟩
    have hfirst : HasHolder store first := by
      by_contra hno
      rw [chooseChunkToDownload_of_no_holder hno] at hholder
      exact hno hholder
    exact ⟨hfirst, _, argmin_eq_chooseChunkToDownload hfirst rest, hready⟩
  · rintro ⟨hfirst, r, hmin, hready⟩
    have heq := argmin_eq_chooseChunkToDownload hfirst rest
    rw [hmin, Option.some.injEq] at heq
    subst heq
    have hmem := List.argmin_mem (Option.mem_def.mpr hmin)
    refine ⟨⟨hready, by simpa using (List.mem_filter.mp hmem).2⟩, fun r' hr' hfetch ↦ ?_⟩
    refine List.le_of_mem_argmin (List.mem_filter.mpr ⟨hr', ?_⟩) (Option.mem_def.mpr hmin)
    simpa using hfetch.2

/-- Two chunks, of which only the second one was announced. -/
def secondAnnounced : ChunkStore
  | 0 => initChunk 0 []
  | _ => { initChunk 1 [] with holders := [some 0] }

/-- The first one is chosen. -/
theorem not_choose_rarest : ¬ ∀ (store : ChunkStore) (first : ChunkRef) (rest : List ChunkRef),
    (∃ r ∈ first :: rest, Fetchable store r) →
      Rarest store (first :: rest) (chooseChunkToDownload store first (first :: rest)) := by
  intro h
  have hfetch : ∃ r ∈ [0, 1], Fetchable secondAnnounced r :=
    ⟨1, by simp, rfl, List.cons_ne_nil _ _⟩
  exact (h secondAnnounced 0 [1] hfetch).fetchable.2 rfl

end BitTorrent
