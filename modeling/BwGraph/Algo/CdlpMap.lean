import Mathlib.Data.Set.Function
import Mathlib.Logic.Function.Iterate
import BwGraph.Algo.Scan
import BwGraph.Algo.CdlpVotes

/-
  `parallel_cdlp_map` against `cdlp`. Both loops propagate labels: in a round every vertex picks a
  label by the labels of its neighbours (`propagate`), and a loop that ends early has come to labels
  that further rounds would not change. `cdlp` picks the elected label. `parallel_cdlp_map` has
  sixteen slots for the votes at a vertex, and a vertex with more labels around it keeps its own
  (`cappedLabel`). So the results are the same when no vertex ever sees more than sixteen labels
  (`parallelCdlpMap_cdlp`), and they need not be otherwise (`parallelCdlpMap_starDb`).

  The votes come in along the edges, and `cdlp` looks at the labels of the out-neighbours: the graph
  is symmetric, with every edge as often in either direction.
-/

namespace BwGraph

open Function List

/-- The pairs that `parallel_cdlp_map` returns. -/
def parallelCdlpMapResults (n : Nat) (m : CdlpMem) : List (VId × VId) :=
  (List.range n).map fun v => (v, m.currentLabels v)

/-- The tasks of `parallel_cdlp_map`: the pages, and the giant vertices. -/
def Db.edgeLists (cfg : Config) (db : Db) : List (List (VId × VId)) :=
  (db.denseRows cfg).map rowEdges

/-! ## Rounds -/

/-- The label that the votes elect. -/
def electedLabel (current : VId) (votes : List VId) : VId :=
  (votes.foldl (better votes.count) (current, 0)).1

/-- The elected label, if the votes are for sixteen labels at most, and else the current one. -/
def cappedLabel (current : VId) (votes : List VId) : VId :=
  if votes.dedup.length ≤ cdlpInitSlots then electedLabel current votes else current

/-- One round: every vertex picks a label by the labels of its neighbours. -/
def propagate (pick : VId → List VId → VId) (n : Nat) (nbrs : VId → List VId) (labels : VId → VId)
    (v : VId) : VId :=
  pick (labels v) (neighborVotes n nbrs labels v)

theorem elects_electedLabel (current : VId) (votes : List VId) :
    Elects current votes (electedLabel current votes) :=
  elects_foldl current (fun _ => Iff.rfl) fun _ _ => rfl

variable {current label : VId}

theorem Elects.eq_electedLabel {votes : List VId} (h : Elects current votes label) :
    label = electedLabel current votes :=
  h.unique (elects_electedLabel current votes)

/-- What a vertex of `parallel_cdlp_map` takes is the capped label, in any order of the votes. -/
theorem TakesLabel.eq_cappedLabel {votes votes' : List VId} (h : TakesLabel current votes label)
    (hp : votes.Perm votes') : label = cappedLabel current votes' := by
  unfold TakesLabel at h
  unfold cappedLabel
  rw [hp.dedup.length_eq] at h
  by_cases hlen : votes'.dedup.length ≤ cdlpInitSlots
  · rw [if_pos hlen]
    refine Elects.eq_electedLabel ?_
    split_ifs at h with hne
    · exact .inr (h.of_perm hp)
    · have hnil : votes = [] := by_contra fun hnot => hne ⟨hnot, hlen⟩
      exact .inl ⟨nil_perm.1 (hnil ▸ hp), h⟩
  · rw [if_neg hlen]
    rwa [if_neg fun hc => hlen hc.2] at h

section Rounds

variable {pick : VId → List VId → VId} {n : Nat} {nbrs : VId → List VId} {labels labels' : VId → VId}

section

variable (h : Set.EqOn labels labels' (Set.Iio n))
include h

theorem neighborVotes_congr (v : VId) :
    neighborVotes n nbrs labels v = neighborVotes n nbrs labels' v :=
  map_congr_left fun _ hu => h (of_decide_eq_true (mem_filter.1 hu).2)

/-- A round depends on the labels of the vertices only. -/
theorem propagate_congr :
    Set.EqOn (propagate pick n nbrs labels) (propagate pick n nbrs labels') (Set.Iio n) := by
  intro v hv
  unfold propagate
  rw [neighborVotes_congr h, h hv]

theorem iterate_propagate_congr (k : Nat) :
    Set.EqOn ((propagate pick n nbrs)^[k] labels) ((propagate pick n nbrs)^[k] labels')
      (Set.Iio n) := by
  induction k with
  | zero => exact h
  | succ k ih =>
    rw [iterate_succ_apply', iterate_succ_apply']
    exact propagate_congr ih

end

/-- No vertex picks another label. -/
def IsStable (pick : VId → List VId → VId) (n : Nat) (nbrs : VId → List VId)
    (labels : VId → VId) : Prop :=
  Set.EqOn (propagate pick n nbrs labels) labels (Set.Iio n)

/-- Further rounds do not change stable labels. -/
theorem IsStable.iterate (h : IsStable pick n nbrs labels) (k : Nat) :
    Set.EqOn ((propagate pick n nbrs)^[k] labels) labels (Set.Iio n) := by
  induction k with
  | zero => exact fun _ _ => rfl
  | succ k ih =>
    rw [iterate_succ_apply]
    exact (iterate_propagate_congr h k).trans ih

/-- A round that has changed no label leaves stable labels. -/
theorem IsStable.of_eqOn (hround : Set.EqOn labels' (propagate pick n nbrs labels) (Set.Iio n))
    (hsame : Set.EqOn labels' labels (Set.Iio n)) : IsStable pick n nbrs labels' :=
  (propagate_congr hsame).trans hround.symm

/-- Rounds with both rules are the same as long as no vertex sees more than sixteen labels. -/
theorem iterate_capped_eq {k : Nat} (h : ∀ i, i < k → ∀ v, v < n →
      (neighborVotes n nbrs ((propagate electedLabel n nbrs)^[i] labels) v).dedup.length ≤
        cdlpInitSlots) :
    Set.EqOn ((propagate cappedLabel n nbrs)^[k] labels)
      ((propagate electedLabel n nbrs)^[k] labels) (Set.Iio n) := by
  induction k with
  | zero => exact fun _ _ => rfl
  | succ k ih =>
    rw [iterate_succ_apply', iterate_succ_apply']
    refine (propagate_congr (ih fun i hi => h i (Nat.lt_succ_of_lt hi))).trans fun v hv => ?_
    exact if_pos (h k (Nat.lt_succ_self k) v hv)

/-! ## The loop of `cdlp` -/

variable {order : Nat → List VId} (hperm : ∀ i, (order i).Perm (List.range n))
include hperm

/-- The loop of `cdlp` takes as many rounds as it may, or comes to stable labels before. -/
theorem cdlpLoop_labels (left iteration : Nat) (st : CdlpState) (htouched : st.Touched)
    (hstable : st.changed = false → IsStable electedLabel n nbrs st.labels) :
    Set.EqOn (cdlpLoop n nbrs order left iteration st).labels
      ((propagate electedLabel n nbrs)^[left] st.labels) (Set.Iio n) := by
  induction left generalizing iteration st with
  | zero => exact fun _ _ => rfl
  | succ left ih =>
    unfold cdlpLoop
    by_cases hc : st.changed = true
    · have hnd : (order iteration).Nodup := (hperm iteration).nodup_iff.2 nodup_range
      obtain ⟨ht, hl, hel, -, hch⟩ := @foldl_cdlpVertex n nbrs (order iteration)
        { st with changed := false } htouched hnd
      have hmem : ∀ v, v < n → v ∈ order iteration :=
        fun v hv => (hperm iteration).mem_iff.2 (mem_range.2 hv)
      have hround : Set.EqOn ((order iteration).foldl (cdlpVertex n nbrs)
          { st with changed := false }).newLabels (propagate electedLabel n nbrs st.labels)
          (Set.Iio n) := fun v hv => Elects.eq_electedLabel (hel v (hmem v hv))
      rw [if_pos hc, iterate_succ_apply]
      refine (ih (iteration + 1) _ (by exact ht) fun hnot => ?_).trans
        (iterate_propagate_congr hround left)
      refine .of_eqOn hround fun v hv => by_contra fun hne => ?_
      exact absurd (hch.2 (.inr ⟨v, hmem v hv, hne⟩)) (Bool.eq_false_iff.1 hnot)
    · rw [if_neg hc]
      exact ((hstable (Bool.eq_false_iff.2 hc)).iterate (left + 1)).symm

theorem cdlp_eq (maxIterations : Nat) :
    cdlp n nbrs maxIterations order = (range n).map fun v =>
      (v, (propagate electedLabel n nbrs)^[maxIterations] id v) := by
  refine map_congr_left fun v hv => Prod.ext rfl ?_
  exact cdlpLoop_labels hperm maxIterations 0 ⟨id, id, fun _ => 0, [], true⟩ (fun _ _ => rfl)
    (fun h => nomatch h) (mem_range.1 hv)

end Rounds

/-! ## The votes of a scan -/

variable (n : Nat) (nbrs : VId → List VId)

theorem edgeList_succ :
    edgeList (n + 1) nbrs = edgeList n nbrs ++ (nbrs n).map fun d => (n, d) := by
  unfold edgeList rowEdges
  rw [range_succ, map_append, flatMap_append]
  simp

theorem count_edgeList (u v : VId) :
    (edgeList n nbrs).count (u, v) = if u < n then (nbrs u).count v else 0 := by
  induction n with
  | zero => rfl
  | succ n ih =>
    rw [edgeList_succ, count_append, ih]
    by_cases hu : u = n
    · subst hu
      have hrow : ((nbrs u).map fun d => (u, d)).count (u, v) = (nbrs u).count v :=
        count_map_of_injective _ _ (Prod.mk_right_injective u) v
      rw [hrow, if_neg (lt_irrefl u), if_pos (Nat.lt_succ_self u), Nat.zero_add]
    · have hrow : ((nbrs n).map fun d => (n, d)).count (u, v) = 0 := by
        refine count_eq_zero_of_not_mem fun hmem => hu ?_
        obtain ⟨d, -, heq⟩ := mem_map.1 hmem
        exact (Prod.ext_iff.1 heq).1.symm
      rw [hrow, Nat.add_zero]
      exact if_congr (Nat.lt_succ_iff_lt_or_eq.trans (or_iff_left hu)).symm rfl rfl

/-- With every edge as often in either direction, the votes along the edges are those of the
neighbours. -/
theorem inVotes_edgeList_perm {n : Nat} {nbrs : VId → List VId} {v : VId}
    (hsym : ∀ u, u < n → (nbrs u).count v = (nbrs v).count u) (labels : VId → VId) :
    (inVotes (edgeList n nbrs) labels v).Perm (neighborVotes n nbrs labels v) := by
  have hsources : (inVotes (edgeList n nbrs) id v).Perm ((nbrs v).filter (· < n)) := by
    rw [perm_iff_count]
    intro u
    have hswap : ((edgeList n nbrs).map Prod.swap).count (v, u) = (edgeList n nbrs).count (u, v) :=
      count_map_of_injective _ _ Prod.swap_injective (u, v)
    rw [count_inVotes, show (fun e : VId × VId => (e.2, id e.1)) = Prod.swap from rfl, hswap,
      count_edgeList]
    by_cases hu : u < n
    · rw [if_pos hu, hsym u hu, count_filter (by simpa using hu)]
    · rw [if_neg hu, count_eq_zero_of_not_mem]
      exact fun hmem => hu (of_decide_eq_true (mem_filter.1 hmem).2)
  have hmap := hsources.map labels
  unfold inVotes at hmap
  rwa [map_map] at hmap

/-! ## The loop of `parallel_cdlp_map` -/

/-- What holds at the head of the loop: the labels are those of as many rounds as iterations. -/
structure RoundsDone (n : Nat) (nbrs : VId → List VId) (maxIterations : Nat) (m : CdlpMem) :
    Prop where
  head : CdlpHead n m
  iteration_le : m.iteration ≤ maxIterations
  labels : Set.EqOn m.currentLabels ((propagate cappedLabel n nbrs)^[m.iteration] id) (Set.Iio n)
  stable : m.changed = 0 → IsStable cappedLabel n nbrs m.currentLabels

section MapLoop

variable {n : Nat} {nbrs : VId → List VId} {edgeLists : List (List (VId × VId))}
  {maxIterations : Nat}

theorem roundsDone_start : RoundsDone n nbrs maxIterations (cdlpStart n id) := by
  refine ⟨cdlpHead_start fun _ h => h, Nat.zero_le _, fun _ _ => rfl, fun hzero v hv => ?_⟩
  have hv : v < n := hv
  rw [show n = 0 from hzero] at hv
  exact absurd hv (Nat.not_lt_zero v)

/-- At the end of the loop all rounds are done. -/
theorem RoundsDone.eq_of_end {m : CdlpMem} (h : RoundsDone n nbrs maxIterations m)
    (hend : (parallelCdlpMap n edgeLists maxIterations).fork m = none) :
    Set.EqOn m.currentLabels ((propagate cappedLabel n nbrs)^[maxIterations] id) (Set.Iio n) := by
  simp only [parallelCdlpMap] at hend
  split_ifs at hend with hgo
  rcases h.iteration_le.lt_or_eq with hlt | heq
  · have hstable := h.stable (Nat.eq_zero_of_not_pos fun hpos => hgo ⟨hlt, hpos⟩)
    obtain ⟨k, hk⟩ := Nat.exists_eq_add_of_le hlt.le
    rw [hk, Nat.add_comm, iterate_add_apply]
    exact (hstable.iterate k).symm.trans (iterate_propagate_congr h.labels k)
  · exact heq ▸ h.labels

variable (hvotes : ∀ labels v, v < n →
    (inVotes edgeLists.flatten labels v).Perm (neighborVotes n nbrs labels v))
  (hdeg : ∀ v, v < n → (nbrs v).length < 2 ^ 32)

include hvotes hdeg

/-- After the votes of an iteration the commit does a round. -/
theorem endIteration_round {m : CdlpMem} (htab : TablesOk n
      (inVotes edgeLists.flatten m.currentLabels)
      (fun v => (inVotes edgeLists.flatten m.currentLabels v).count) m) :
    Set.EqOn (endIteration n m).currentLabels (propagate cappedLabel n nbrs m.currentLabels)
      (Set.Iio n) := by
  intro v hv
  have hperm := hvotes m.currentLabels v hv
  have hlen : (inVotes edgeLists.flatten m.currentLabels v).length < 2 ^ 32 := by
    rw [hperm.length_eq, neighborVotes, length_map]
    exact (length_filter_le _ _).trans_lt (hdeg v hv)
  rw [(endIteration_spec n m).1 v hv]
  refine TakesLabel.eq_cappedLabel (commitLabel_spec (htab v hv) fun _ l _ => ?_) hperm
  exact count_le_length.trans_lt hlen

variable (hn : n * cdlpInitSlots ≤ 2 ^ 32) (hedges : ∀ e ∈ edgeLists.flatten, e.1 < n ∧ e.2 < n)

include hn hedges

theorem roundsDone_invariant (maxIterations : Nat) :
    (parallelCdlpMap n edgeLists maxIterations).Invariant (RoundsDone n nbrs maxIterations)
      fun m1 m ts => (RoundsDone n nbrs maxIterations m1 ∧ m1.iteration < maxIterations ∧
        0 < m1.changed) ∧ VotesOk edgeLists.flatten n m1 m ts := by
  refine parallelCdlpMap_invariant hn hedges (fun m h => h.head) ?_
  intro m1 m hm hlt _ hcur hiter htab
  rw [← hcur] at htab
  have hround := endIteration_round hvotes hdeg htab
  obtain ⟨hlabels, hsucc, hchanged, -⟩ := endIteration_spec n m
  refine ⟨CdlpHead.endIteration fun v hv => ?_, ?_, ?_, fun hzero => ?_⟩
  · refine commitLabel_lt (htab v hv) (hcur ▸ hm.head.labels v hv) ?_
    rw [hcur]
    exact hm.head.votes_lt hedges v
  · rw [hsucc, hiter]
    exact hlt
  · rw [hsucc, hiter, iterate_succ_apply']
    exact hround.trans (propagate_congr (hcur ▸ hm.labels))
  · refine .of_eqOn hround fun v hv => by_contra fun hne => ?_
    rw [hlabels v hv] at hne
    exact absurd hzero (Nat.ne_of_gt (hchanged.2 ⟨v, hv, hne⟩))

/-- The loop ends, and its labels are those of `maxIterations` rounds with the capped label. -/
theorem parallelCdlpMap_rounds (maxIterations : Nat) :
    (parallelCdlpMap n edgeLists maxIterations).Terminates (.head (cdlpStart n id)) ∧
      ∀ es s, runAll (parallelCdlpMap n edgeLists maxIterations).step (.head (cdlpStart n id)) es =
        some s → (parallelCdlpMap n edgeLists maxIterations).Stuck s → ∃ m, s = .head m ∧
          parallelCdlpMapResults n m = (range n).map fun v =>
            (v, (propagate cappedLabel n nbrs)^[maxIterations] id v) := by
  have hinv := roundsDone_invariant hvotes hdeg hn hedges maxIterations
  have hvar := parallelCdlpMap_variant hinv fun m1 m ts hsec => ⟨hsec.1.2.1, hsec.2.iteration⟩
  refine ⟨hvar.terminates roundsDone_start, fun es s run hstuck => ?_⟩
  obtain ⟨m, rfl, hm, hend⟩ := (hinv.of_run (s := .head _) roundsDone_start run).2 hstuck
  refine ⟨m, rfl, map_congr_left fun v hv => Prod.ext rfl ?_⟩
  exact hm.eq_of_end hend (mem_range.1 hv)

end MapLoop

/-! ## Databases that were just built -/

/-- Every edge is there as often in either direction. -/
def MemGraph.SymmetricEdges (g : MemGraph) : Prop :=
  ∀ u v, u < g.vertexCount → v < g.vertexCount → (g.neighbors u).count v = (g.neighbors v).count u

section

variable {cfg : Config} {g : MemGraph} {db : Db} (hps : 0 < cfg.pageSize)
  (hds : 0 < cfg.deltaPageSize) (hn : g.vertexCount ≤ cfg.idLimit)
include hps hds hn

/-- The tasks of a database that was just built go through the edges of the reads. -/
theorem Built.edgeLists_perm (hv : g.vertexCount < 2 ^ 32) (h : Built cfg g db) :
    (db.edgeLists cfg).flatten.Perm (edgeList g.vertexCount (db.base cfg)) := by
  have hperm := (h.scanExact hps hds hn hv (h.settled hps hds hn)).perm
  rwa [(h.stores hps hds hn hv).count] at hperm

/-- On a symmetric graph the votes along these edges are those of the neighbours. -/
theorem Built.votes_perm (hv : g.vertexCount < 2 ^ 32) (h : Built cfg g db)
    (hsym : g.SymmetricEdges) (labels : VId → VId) {v : VId} (hvn : v < g.vertexCount) :
    (inVotes (db.edgeLists cfg).flatten labels v).Perm
      (neighborVotes g.vertexCount (db.base cfg) labels v) := by
  obtain ⟨paged, hp⟩ := h.placed hn
  have hedges := (h.edgeLists_perm hps hds hn hv).filter fun e => e.2 = v
  have hvotes := hedges.map fun e => labels e.1
  refine hvotes.trans (inVotes_edgeList_perm (fun u hu => ?_) labels)
  rw [(hp.base_perm hps hu).count_eq, (hp.base_perm hps hvn).count_eq]
  exact hsym u v hu hvn

/-- On a symmetric database that was just built every run of `parallel_cdlp_map` ends, with the
labels of `maxIterations` rounds. -/
theorem Built.parallelCdlpMap_rounds (hslots : g.vertexCount * cdlpInitSlots ≤ 2 ^ 32)
    (h : Built cfg g db) (hsym : g.SymmetricEdges)
    (hdeg : ∀ v, v < g.vertexCount → (g.neighbors v).length < 2 ^ 32) (maxIterations : Nat) :
    (parallelCdlpMap db.getVertexCount (db.edgeLists cfg) maxIterations).Terminates
      (.head (cdlpStart db.getVertexCount id)) ∧
    ∀ es s, runAll (parallelCdlpMap db.getVertexCount (db.edgeLists cfg) maxIterations).step
        (.head (cdlpStart db.getVertexCount id)) es = some s →
      (parallelCdlpMap db.getVertexCount (db.edgeLists cfg) maxIterations).Stuck s →
      ∃ m, s = .head m ∧
        parallelCdlpMapResults db.getVertexCount m = (range db.getVertexCount).map fun v =>
          (v, (propagate cappedLabel db.getVertexCount (db.base cfg))^[maxIterations] id v) := by
  have hv : g.vertexCount < 2 ^ 32 := by
    have : g.vertexCount * 16 ≤ 2 ^ 32 := hslots
    omega
  have hst := h.stores hps hds hn hv
  obtain ⟨paged, hp⟩ := h.placed hn
  rw [hst.count]
  have hdeg' : ∀ v, v < g.vertexCount → (db.base cfg v).length < 2 ^ 32 := by
    intro v hvn
    rw [(hp.base_perm hps hvn).length_eq]
    exact hdeg v hvn
  have hedges : ∀ e ∈ (db.edgeLists cfg).flatten, e.1 < g.vertexCount ∧ e.2 < g.vertexCount := by
    rintro ⟨u, d⟩ he
    have hpos := count_pos_iff.2 ((h.edgeLists_perm hps hds hn hv).mem_iff.1 he)
    rw [count_edgeList] at hpos
    split_ifs at hpos with hu
    · exact ⟨hu, hst.lt u hu d (count_pos_iff.1 hpos)⟩
    · exact absurd hpos (Nat.lt_irrefl 0)
  exact BwGraph.parallelCdlpMap_rounds
    (fun labels v hvn => h.votes_perm hps hds hn hv hsym labels hvn) hdeg' hslots hedges
    maxIterations

end

/-- In the iterations of `cdlp` no vertex sees more than sixteen labels at its neighbours. -/
def LabelsFit (n : Nat) (nbrs : VId → List VId) (maxIterations : Nat) : Prop :=
  ∀ i, i < maxIterations → ∀ v, v < n →
    (neighborVotes n nbrs ((propagate electedLabel n nbrs)^[i] id) v).dedup.length ≤ cdlpInitSlots

/-- On a symmetric database that was just built every run of `parallel_cdlp_map` ends, with the
labels of `maxIterations` rounds in which a vertex that sees more than sixteen labels keeps its own.
If that never happens in the iterations of `cdlp`, it returns what `cdlp` returns. The numbers of
the slots are of 32 bits, and so are the numbers of votes. -/
theorem parallelCdlpMap_cdlp {cfg : Config} {g : MemGraph} {db : Db} (hps : 0 < cfg.pageSize)
    (hds : 0 < cfg.deltaPageSize) (hn : g.vertexCount ≤ cfg.idLimit)
    (hslots : g.vertexCount * cdlpInitSlots ≤ 2 ^ 32) (hb : Built cfg g db)
    (hsym : g.SymmetricEdges) (hdeg : ∀ v, v < g.vertexCount → (g.neighbors v).length < 2 ^ 32)
    (maxIterations : Nat) {order : Nat → List VId}
    (hperm : ∀ i, (order i).Perm (List.range db.getVertexCount)) :
    (parallelCdlpMap db.getVertexCount (db.edgeLists cfg) maxIterations).Terminates
      (.head (cdlpStart db.getVertexCount id)) ∧
    ∀ es s, runAll (parallelCdlpMap db.getVertexCount (db.edgeLists cfg) maxIterations).step
        (.head (cdlpStart db.getVertexCount id)) es = some s →
      (parallelCdlpMap db.getVertexCount (db.edgeLists cfg) maxIterations).Stuck s →
      ∃ m, s = .head m ∧
        parallelCdlpMapResults db.getVertexCount m = ((List.range db.getVertexCount).map fun v =>
          (v, (propagate cappedLabel db.getVertexCount (db.base cfg))^[maxIterations] id v)) ∧
        (LabelsFit db.getVertexCount (db.base cfg) maxIterations →
          parallelCdlpMapResults db.getVertexCount m =
            cdlp db.getVertexCount (db.base cfg) maxIterations order) := by
  obtain ⟨hterm, hrun⟩ :=
    hb.parallelCdlpMap_rounds hps hds hn hslots hsym hdeg maxIterations
  refine ⟨hterm, fun es s run hstuck => ?_⟩
  obtain ⟨m, rfl, hm⟩ := hrun es s run hstuck
  refine ⟨m, rfl, hm, fun hfit => ?_⟩
  rw [hm, cdlp_eq hperm]
  refine List.map_congr_left fun v hv => Prod.ext rfl ?_
  exact iterate_capped_eq hfit (List.mem_range.1 hv)

/-! ## A star -/

/-- A star with seventeen leaves. -/
def starGraph : MemGraph :=
  MemGraph.ofLists ((List.range' 1 17) :: List.replicate 17 [0]) (by decide)

/-- Pages of 1000 bytes. -/
def starConfig : Config := ⟨1000, 120, 0, 50, 1, 0, false⟩

/-- The star, loaded by `build_seq_db`. -/
def starDb : Db :=
  (buildSeqDb starConfig ⟨.listed, 0, 0⟩ 1 starGraph).toOption.getD
    (loadedDb starConfig ⟨.listed, 0, 0⟩ starGraph [] VItem.init [])

theorem starDb_built : Built starConfig starGraph starDb :=
  .inr (.seq rfl ⟨.listed, 0, 0⟩ Nat.one_pos (by decide +kernel) _)

theorem starGraph_symmetricEdges : starGraph.SymmetricEdges := by
  have hall : ∀ u < 18, ∀ v < 18,
      (starGraph.neighbors u).count v = (starGraph.neighbors v).count u := by
    decide +kernel
  exact fun u v hu hv => hall u hu v hv

/-- One iteration on the star comes to its end: the hub sees seventeen labels and keeps its own, and
the leaves take it. -/
theorem parallelCdlpMap_cdlp_starDb : ∃ es m,
    runAll (parallelCdlpMap starDb.getVertexCount (starDb.edgeLists starConfig) 1).step
      (.head (cdlpStart starDb.getVertexCount id)) es = some (.head m) ∧
    (parallelCdlpMap starDb.getVertexCount (starDb.edgeLists starConfig) 1).Stuck (.head m) ∧
    parallelCdlpMapResults starDb.getVertexCount m = (List.range 18).map fun v => (v, 0) := by
  obtain ⟨hterm, hrun⟩ := parallelCdlpMap_cdlp (by decide) (by decide) (by decide) (by decide)
    starDb_built starGraph_symmetricEdges (by decide +kernel) 1 fun _ => .refl _
  obtain ⟨es, s, run, hstuck⟩ := hterm.exists_stuck
  obtain ⟨m, rfl, hm, -⟩ := hrun es s run hstuck
  exact ⟨es, m, run, hstuck, hm.trans (by decide +kernel)⟩

/-- `cdlp` elects the label 1 for the hub. -/
theorem parallelCdlpMap_starDb :
    ¬ ∀ (cfg : Config) (g : MemGraph) (db : Db), 0 < cfg.pageSize → 0 < cfg.deltaPageSize →
      g.vertexCount ≤ cfg.idLimit → g.vertexCount * cdlpInitSlots ≤ 2 ^ 32 → Built cfg g db →
      g.SymmetricEdges → (∀ v, v < g.vertexCount → (g.neighbors v).length < 2 ^ 32) →
      ∀ (maxIterations : Nat) (order : Nat → List VId),
      (∀ i, (order i).Perm (List.range db.getVertexCount)) → ∀ es m,
      runAll (parallelCdlpMap db.getVertexCount (db.edgeLists cfg) maxIterations).step
        (.head (cdlpStart db.getVertexCount id)) es = some (.head m) →
      (parallelCdlpMap db.getVertexCount (db.edgeLists cfg) maxIterations).Stuck (.head m) →
      parallelCdlpMapResults db.getVertexCount m =
        cdlp db.getVertexCount (db.base cfg) maxIterations order := by
  intro h
  have hdeg : ∀ v, v < starGraph.vertexCount → (starGraph.neighbors v).length < 2 ^ 32 := by
    decide +kernel
  obtain ⟨hterm, hrounds⟩ := starDb_built.parallelCdlpMap_rounds (by decide) (by decide) (by decide)
    (by decide) starGraph_symmetricEdges hdeg 1
  obtain ⟨es, s, run, hstuck⟩ := hterm.exists_stuck
  obtain ⟨m, rfl, hm⟩ := hrounds es s run hstuck
  have hsame := h starConfig starGraph starDb (by decide) (by decide) (by decide) (by decide)
    starDb_built starGraph_symmetricEdges hdeg 1 (fun _ => List.range starDb.getVertexCount)
    (fun _ => .refl _) es m run hstuck
  exact absurd (hm.symm.trans hsame) (by decide +kernel)

end BwGraph
