import BwGraph.Db.Refinement

/-
  What `do_split` does with the order it gets. `gorder_reordering_optimized` (`reorder.h`) returns
  a permutation of the keys of the merged graph whatever the containers, the scores and the window
  are, so the packing loop meets every vertex once: over the pages that the new locations name,
  every vertex has one entry, at its location.

  The keys are the ids of vertices, hence below `INVALID_VERTEX`; the neighbour lists are
  arbitrary.
-/

namespace BwGraph

/-- Slot `slot.2` of page `slot.1` is an entry of `v`, on a page that a new location names. -/
def PackedAt (pool : CsrPool) (locs : Locations) (v : VId) (slot : PageNo × Nat) : Prop :=
  (∃ w p, locs.lookup w = some p ∧ p.desired.pageNo = slot.1) ∧
    ∃ e, (pool.page slot.1).vertexSpan[slot.2]? = some e ∧ e.vertexId = v

variable {cfg : Config} {readable : Prop} {graph : AdjMap} {pool0 pool : CsrPool}
  {locs : Locations}

section

variable (h : Replaces cfg readable graph pool0 pool locs) {v : VId}
include h

/-- The location of a vertex is an entry of it. -/
theorem Replaces.packedAt {p : PreparedVertexVersion} (hp : locs.lookup v = some p) :
    PackedAt pool locs v (p.desired.pageNo, p.desired.offset) := by
  obtain ⟨e, he, hv, -⟩ := h.entry v p hp
  exact ⟨⟨v, p, hp, rfl⟩, e, he, hv⟩

/-- Every entry of a named page is the location of its vertex. -/
theorem Replaces.location_of_packedAt {slot : PageNo × Nat} (hs : PackedAt pool locs v slot) :
    ∃ p, locs.lookup v = some p ∧ slot = (p.desired.pageNo, p.desired.offset) := by
  obtain ⟨⟨w, p, hp, hq⟩, e, he, rfl⟩ := hs
  rw [← hq] at he
  obtain ⟨-, p', hp', hpage, hoff⟩ := h.owned w p hp slot.2 e he
  exact ⟨p', hp', Prod.ext (hq.symm.trans hpage.symm) hoff.symm⟩

end

/-- The reordering lists every key once, and a split packs every vertex once. -/
theorem doSplit_packs_once (cfg : Config) (env : SmoEnv) (graph : AdjMap) :
    (∀ windowSize, (gorderReorderingOptimized cfg env.gorder graph windowSize).Perm graph.keys) ∧
    ∀ db locs db', db.csrPool.Ok → db.csrPool.AllocOk →
      doSplit cfg env graph db = .ok locs db' →
      (∀ v ∈ graph, ∃! slot, PackedAt db'.csrPool locs v slot) ∧
        ∀ v, v ∉ graph → ∀ slot, ¬ PackedAt db'.csrPool locs v slot := by
  refine ⟨gorder_perm cfg env.gorder graph, fun db locs db' hok halloc h => ?_⟩
  obtain ⟨-, hrep, hmem⟩ := doSplit_replaces hok halloc h
  constructor
  · intro v hv
    obtain ⟨p, hp⟩ := Option.isSome_iff_exists.1 (AList.lookup_isSome.2 ((hmem v).2 hv))
    refine ⟨_, hrep.packedAt hp, fun slot hs => ?_⟩
    obtain ⟨p', hp', rfl⟩ := hrep.location_of_packedAt hs
    rw [hp] at hp'
    rw [Option.some.inj hp']
  · intro v hv slot hs
    obtain ⟨p, hp, -⟩ := hrep.location_of_packedAt hs
    exact hv ((hmem v).1 (AList.lookup_isSome.1 (Option.isSome_iff_exists.2 ⟨p, hp⟩)))

/-- A merged graph with a self-loop, a repeated neighbour and neighbours outside of it. -/
def splitGraph : AdjMap :=
  [(3, [1, 7, 1, 9, 2]), (2, [2, 0, 8]), (1, [3, 2])].foldl
    (fun (graph : AdjMap) item => graph.insert item.1 item.2) ∅

/-- Three vertices are split over the pages of the small database. -/
theorem doSplit_packs_once_small :
    ∃ locs db', doSplit (smallConfig false) .smooth splitGraph (smallDb false) = .ok locs db' ∧
      ∃! slot, PackedAt db'.csrPool locs 2 slot := by
  have hinv := (smallDb_loaded false).inv
  have h : doSplit (smallConfig false) .smooth splitGraph (smallDb false) =
      .ok ((doSplit (smallConfig false) .smooth splitGraph (smallDb false)).value?.getD ∅)
        (doSplit (smallConfig false) .smooth splitGraph (smallDb false)).state := by
    have hv : (doSplit (smallConfig false) .smooth splitGraph (smallDb false)).value?.isSome := by
      decide +kernel
    obtain ⟨locs, hl⟩ := Option.isSome_iff_exists.1 hv
    rw [hl]
    exact EStateM.Result.eq_ok_of_value? hl
  exact ⟨_, _, h, ((doSplit_packs_once (smallConfig false) .smooth splitGraph).2 _ _ _
    hinv.pool hinv.alloc h).1 2 (by decide)⟩

end BwGraph
