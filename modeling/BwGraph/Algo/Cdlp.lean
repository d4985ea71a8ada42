import BwGraph.Lib.Plurality
import BwGraph.Algo.Bfs

/-
  Community detection by label propagation (`cdlp` and `cdlp_voting_map` of `db_algorithm.cc`).
  `n` is `get_vertex_count` and `nbrs` is `read_neighbor`. In an iteration every vertex takes the
  most frequent label of its neighbours, the least one on ties; all labels change together at the
  end of it, and the loop ends when none has changed.

  `cdlp` counts in one array for all vertices, which it clears label by label, and takes the
  vertices in an order that may be shuffled. `cdlp_voting_map` takes them in parallel and counts in
  a hash map. A vertex reads the old labels and writes its own new one, so a step here is a vertex;
  the orders of the vertices and of the hash maps are parameters.

  Both give every vertex the label that the votes of its neighbours elect (`LabelStep`), so they
  agree after every iteration (`cdlp_votingMap`).
-/

namespace BwGraph

open Function List AList

/-! ## `cdlp` -/

/-- The locals of `cdlp`. -/
structure CdlpState where
  labels : VId → VId
  newLabels : VId → VId
  labelCount : VId → Nat
  touchedLabels : List VId
  changed : Bool

/-- The counters of the touched labels go back to zero. -/
def CdlpState.clear (st : CdlpState) : CdlpState :=
  { st with
    labelCount := st.touchedLabels.foldl (fun count label => Function.update count label 0)
      st.labelCount
    touchedLabels := [] }

/-- The vote of one neighbour. -/
def cdlpCount (n : Nat) (st : CdlpState) (neighbor : VId) : CdlpState :=
  if neighbor < n then
    let label := st.labels neighbor
    { st with
      labelCount := Function.update st.labelCount label (st.labelCount label + 1)
      touchedLabels := if st.labelCount label = 0 then st.touchedLabels ++ [label]
        else st.touchedLabels }
  else st

/-- One vertex of an iteration of `cdlp`. -/
def cdlpVertex (n : Nat) (nbrs : VId → List VId) (st : CdlpState) (v : VId) : CdlpState :=
  if nbrs v = [] then { st with newLabels := Function.update st.newLabels v (st.labels v) }
  else
    let st := (nbrs v).foldl (cdlpCount n) st.clear
    let newLabel := (st.touchedLabels.foldl (better st.labelCount) (st.labels v, 0)).1
    { st with
      newLabels := Function.update st.newLabels v newLabel
      changed := st.changed || decide (newLabel ≠ st.labels v) }

/-- The loop of `cdlp`: the iterations that are left, and the number of the next one. -/
def cdlpLoop (n : Nat) (nbrs : VId → List VId) (vertexOrder : Nat → List VId) :
    Nat → Nat → CdlpState → CdlpState
  | 0, _, st => st
  | left + 1, iteration, st =>
    if st.changed then
      let st := (vertexOrder iteration).foldl (cdlpVertex n nbrs) { st with changed := false }
      cdlpLoop n nbrs vertexOrder left (iteration + 1)
        { st with labels := st.newLabels, newLabels := st.labels }
    else st

/-- `cdlp`; `vertexOrder` are the orders of the iterations. -/
def cdlp (n : Nat) (nbrs : VId → List VId) (maxIterations : Nat) (vertexOrder : Nat → List VId) :
    List (VId × VId) :=
  let st := cdlpLoop n nbrs vertexOrder maxIterations 0 ⟨id, id, fun _ => 0, [], true⟩
  (List.range n).map fun v => (v, st.labels v)

/-! ## `cdlp_voting_map` -/

/-- The votes for each label; the counts are of type `uint32_t`. -/
abbrev VoteMap := AList (fun _ : VId => Nat)

/-- `vote_map[label]`. -/
def VoteMap.get (m : VoteMap) (label : VId) : Nat := (m.lookup label).getD 0

/-- `vote_map[current_labels[nb]]++`. -/
def countVote (n : Nat) (currentLabels : VId → VId) (m : VoteMap) (nb : VId) : VoteMap :=
  if nb < n then
    m.insert (currentLabels nb) ((VoteMap.get m (currentLabels nb) + 1) % 2 ^ 32)
  else m

/-- The next label of a vertex; `ho` is the order of its hash map. -/
def votingLabel (n : Nat) (nbrs : VId → List VId) (ho : HashOrder) (currentLabels : VId → VId)
    (v : VId) : VId :=
  if nbrs v = [] then currentLabels v
  else
    let voteMap := (nbrs v).foldl (countVote n currentLabels) ∅
    ((ho.order voteMap.keys).foldl (better (VoteMap.get voteMap)) (currentLabels v, 0)).1

/-- The arrays of `cdlp_voting_map` and the number of labels that have changed. -/
structure VotingState where
  currentLabels : VId → VId
  nextLabels : VId → VId
  changed : Nat

/-- The loop of `cdlp_voting_map`. -/
def votingLoop (n : Nat) (nbrs : VId → List VId) (vertexOrder : Nat → List VId)
    (ho : Nat → VId → HashOrder) : Nat → Nat → VotingState → VotingState
  | 0, _, st => st
  | left + 1, iteration, st =>
    if st.changed > 0 then
      let nextLabels := (vertexOrder iteration).foldl (fun next v => Function.update next v
        (votingLabel n nbrs (ho iteration v) st.currentLabels v)) st.nextLabels
      votingLoop n nbrs vertexOrder ho left (iteration + 1)
        ⟨nextLabels, st.currentLabels,
          ((List.range n).filter fun v => st.currentLabels v ≠ nextLabels v).length⟩
    else st

/-- `cdlp_voting_map`. -/
def cdlpVotingMap (n : Nat) (nbrs : VId → List VId) (maxIterations : Nat)
    (vertexOrder : Nat → List VId) (ho : Nat → VId → HashOrder) : List (VId × VId) :=
  if n = 0 then []
  else
    let st := votingLoop n nbrs vertexOrder ho maxIterations 0 ⟨id, id, n⟩
    (List.range n).map fun v => (v, st.currentLabels v)

/-! ## What an iteration does -/

section

variable {n : Nat} {nbrs : VId → List VId}

/-- The votes at `v`: the labels of its neighbours. -/
def neighborVotes (n : Nat) (nbrs : VId → List VId) (labels : VId → VId) (v : VId) : List VId :=
  ((nbrs v).filter (· < n)).map labels

/-- Every vertex has taken the label that the votes of its neighbours elect. -/
def LabelStep (n : Nat) (nbrs : VId → List VId) (labels labels' : VId → VId) : Prop :=
  ∀ v, v < n → Elects (labels v) (neighborVotes n nbrs labels v) (labels' v)

/-- An iteration depends on the labels of the vertices only. -/
theorem LabelStep.unique {labels labels1 labels' labels1' : VId → VId}
    (heq : ∀ v, v < n → labels1 v = labels v) (h : LabelStep n nbrs labels labels')
    (h' : LabelStep n nbrs labels1 labels1') : ∀ v, v < n → labels1' v = labels' v := by
  intro v hv
  have hvotes : neighborVotes n nbrs labels1 v = neighborVotes n nbrs labels v :=
    map_congr_left fun u hu => heq u (by simpa using (mem_filter.1 hu).2)
  have hstep := h' v hv
  rw [hvotes, heq v hv] at hstep
  exact hstep.unique (h v hv)

/-! ## The array of `cdlp` -/

theorem foldl_update_zero (labels : List VId) (count : VId → Nat) (l : VId) :
    labels.foldl (fun count label => update count label 0) count l =
      if l ∈ labels then 0 else count l := by
  induction labels generalizing count with
  | nil => simp
  | cons a labels ih =>
    rw [foldl_cons, ih]
    by_cases hl : l = a
    · subst hl
      simp
    · simp [hl]

/-- Only touched labels have a count. -/
def CdlpState.Touched (st : CdlpState) : Prop := ∀ l, l ∉ st.touchedLabels → st.labelCount l = 0

theorem CdlpState.Touched.clear {st : CdlpState} (h : st.Touched) :
    st.clear.labelCount = fun _ => 0 := by
  funext l
  show st.touchedLabels.foldl _ st.labelCount l = 0
  rw [foldl_update_zero]
  split_ifs with hl
  · rfl
  · exact h l hl

/-- Counting the neighbours adds their votes. -/
theorem foldl_cdlpCount (l : List VId) (votes : List VId) (st : CdlpState)
    (hcount : ∀ a, st.labelCount a = votes.count a) (hmem : ∀ a, a ∈ st.touchedLabels ↔ a ∈ votes) :
    ∃ count touched, l.foldl (cdlpCount n) st =
        { st with labelCount := count, touchedLabels := touched } ∧
      (∀ a, count a = (votes ++ (l.filter (· < n)).map st.labels).count a) ∧
      ∀ a, a ∈ touched ↔ a ∈ votes ++ (l.filter (· < n)).map st.labels := by
  induction l generalizing votes st with
  | nil => exact ⟨st.labelCount, st.touchedLabels, rfl, by simpa using hcount, by simpa using hmem⟩
  | cons d l ih =>
    rw [foldl_cons]
    by_cases hd : d < n
    · have hstep : cdlpCount n st d = { st with
          labelCount := update st.labelCount (st.labels d) (st.labelCount (st.labels d) + 1)
          touchedLabels := if st.labelCount (st.labels d) = 0 then
            st.touchedLabels ++ [st.labels d] else st.touchedLabels } := if_pos hd
      have hcount' : ∀ a, update st.labelCount (st.labels d)
          (st.labelCount (st.labels d) + 1) a = (votes ++ [st.labels d]).count a := by
        intro a
        by_cases ha : a = st.labels d
        · subst ha
          simp [hcount]
        · simp [ha, hcount, Ne.symm ha]
      have hmem' : ∀ a, a ∈ (if st.labelCount (st.labels d) = 0 then
          st.touchedLabels ++ [st.labels d] else st.touchedLabels) ↔
          a ∈ votes ++ [st.labels d] := by
        intro a
        split_ifs with h0
        · simp [hmem]
        · have hin : st.labels d ∈ votes := by
            rwa [hcount, count_eq_zero, not_not] at h0
          simp only [hmem, mem_append, mem_singleton]
          exact ⟨.inl, fun h => h.elim id fun ha => ha ▸ hin⟩
      obtain ⟨count, touched, heq, hc, hm⟩ := ih (votes ++ [st.labels d]) { st with
          labelCount := update st.labelCount (st.labels d) (st.labelCount (st.labels d) + 1)
          touchedLabels := if st.labelCount (st.labels d) = 0 then
            st.touchedLabels ++ [st.labels d] else st.touchedLabels } hcount' hmem'
      rw [hstep]
      refine ⟨count, touched, heq, fun a => ?_, fun a => ?_⟩
      · rw [hc a]
        simp [hd]
      · rw [hm a]
        simp [hd]
    · have hstep : cdlpCount n st d = st := if_neg hd
      rw [hstep]
      obtain ⟨count, touched, heq, hc, hm⟩ := ih votes st hcount hmem
      refine ⟨count, touched, heq, fun a => ?_, fun a => ?_⟩
      · rw [hc a, filter_cons_of_neg (by simpa using hd)]
      · rw [hm a, filter_cons_of_neg (by simpa using hd)]

/-- What one vertex does: it elects its new label, and says whether that is another one. -/
theorem cdlpVertex_spec (st : CdlpState) (h : st.Touched) (v : VId) :
    ∃ w, Elects (st.labels v) (neighborVotes n nbrs st.labels v) w ∧
      (cdlpVertex n nbrs st v).Touched ∧
      (cdlpVertex n nbrs st v).labels = st.labels ∧
      (cdlpVertex n nbrs st v).newLabels = update st.newLabels v w ∧
      ((cdlpVertex n nbrs st v).changed = true ↔ st.changed = true ∨ w ≠ st.labels v) := by
  unfold cdlpVertex neighborVotes
  by_cases hv : nbrs v = []
  · rw [if_pos hv, hv]
    exact ⟨st.labels v, .inl ⟨rfl, rfl⟩, h, rfl, rfl, by simp⟩
  · rw [if_neg hv]
    obtain ⟨count, touched, heq, hc, hm⟩ := foldl_cdlpCount (n := n) (nbrs v) [] st.clear
      (fun a => by rw [h.clear]; rfl) (fun a => by simp [CdlpState.clear])
    rw [heq]
    simp only [nil_append] at hc hm
    refine ⟨_, elects_foldl (st.labels v) hm fun a _ => hc a, fun l hl => ?_, rfl, rfl, ?_⟩
    · show count l = 0
      rw [hc, count_eq_zero]
      exact fun ha => hl ((hm l).2 ha)
    · simp only [Bool.or_eq_true, decide_eq_true_eq]
      rfl

/-- A pass over distinct vertices elects the label of each of them. -/
theorem foldl_cdlpVertex (order : List VId) (st : CdlpState) (h : st.Touched) (hnd : order.Nodup) :
    let st' := order.foldl (cdlpVertex n nbrs) st
    st'.Touched ∧ st'.labels = st.labels ∧
      (∀ v ∈ order, Elects (st.labels v) (neighborVotes n nbrs st.labels v) (st'.newLabels v)) ∧
      (∀ v, v ∉ order → st'.newLabels v = st.newLabels v) ∧
      (st'.changed = true ↔ st.changed = true ∨ ∃ v ∈ order, st'.newLabels v ≠ st.labels v) := by
  induction order generalizing st with
  | nil => simpa using h
  | cons v order ih =>
    obtain ⟨w, hw, htouched, hlabels, hnew, hchanged⟩ :=
      @cdlpVertex_spec n nbrs st h v
    obtain ⟨hv, hnd⟩ := nodup_cons.1 hnd
    obtain ⟨ht, hl, hel, hkeep, hch⟩ := ih (cdlpVertex n nbrs st v) htouched hnd
    have hself : ((order.foldl (cdlpVertex n nbrs) (cdlpVertex n nbrs st v)).newLabels v) = w := by
      rw [hkeep v hv, hnew, update_self]
    refine ⟨ht, hl.trans hlabels, fun u hu => ?_, fun u hu => ?_, ?_⟩
    · rcases mem_cons.1 hu with rfl | hu
      · rw [foldl_cons, hself]
        exact hw
      · have := hel u hu
        rwa [hlabels] at this
    · rw [mem_cons, not_or] at hu
      rw [foldl_cons, hkeep u hu.2, hnew, update_of_ne hu.1]
    · rw [foldl_cons, hch, hchanged, hlabels, exists_mem_cons_iff, hself, or_assoc]

/-! ## The hash map of `cdlp_voting_map` -/

theorem VoteMap.get_insert (m : VoteMap) (l : VId) (c : Nat) (a : VId) :
    VoteMap.get (insert l c m) a = if a = l then c else VoteMap.get m a := by
  unfold VoteMap.get
  split_ifs with h
  · subst h
    simp
  · rw [lookup_insert_ne h]

/-- Counting fewer than 2^32 neighbours adds their votes. -/
theorem foldl_countVote (labels : VId → VId) (l votes : List VId) (m : VoteMap)
    (hlen : votes.length + l.length < 2 ^ 32)
    (hcount : ∀ a, VoteMap.get m a = votes.count a) (hmem : ∀ a, a ∈ m.keys ↔ a ∈ votes) :
    (∀ a, VoteMap.get (l.foldl (countVote n labels) m) a =
      (votes ++ (l.filter (· < n)).map labels).count a) ∧
    ∀ a, a ∈ (l.foldl (countVote n labels) m).keys ↔
      a ∈ votes ++ (l.filter (· < n)).map labels := by
  induction l generalizing votes m with
  | nil => exact ⟨by simpa using hcount, by simpa using hmem⟩
  | cons d l ih =>
    rw [foldl_cons]
    rw [length_cons] at hlen
    by_cases hd : d < n
    · have hstep : countVote n labels m d =
          m.insert (labels d) ((VoteMap.get m (labels d) + 1) % 2 ^ 32) := if_pos hd
      have hle : votes.count (labels d) ≤ votes.length := count_le_length
      have hmod : (votes.count (labels d) + 1) % 2 ^ 32 = votes.count (labels d) + 1 :=
        Nat.mod_eq_of_lt (by omega)
      have hcount' : ∀ a, VoteMap.get (m.insert (labels d) (votes.count (labels d) + 1)) a =
          (votes ++ [labels d]).count a := by
        intro a
        rw [VoteMap.get_insert]
        split_ifs with ha
        · subst ha
          simp
        · simp [hcount, Ne.symm ha]
      have hmem' : ∀ a, a ∈ (m.insert (labels d) (votes.count (labels d) + 1)).keys ↔
          a ∈ votes ++ [labels d] := by
        intro a
        rw [← AList.mem_keys, AList.mem_insert, AList.mem_keys, hmem, mem_append,
          mem_singleton, or_comm]
      obtain ⟨hc, hm⟩ := ih (votes ++ [labels d])
        (m.insert (labels d) (votes.count (labels d) + 1)) (by simp; omega) hcount' hmem'
      rw [hstep, hcount, hmod]
      refine ⟨fun a => ?_, fun a => ?_⟩
      · rw [hc a]
        simp [hd]
      · rw [hm a]
        simp [hd]
    · have hstep : countVote n labels m d = m := if_neg hd
      rw [hstep, filter_cons_of_neg (by simpa using hd)]
      exact ih votes m (by omega) hcount hmem

/-- One vertex elects its new label, in any order of its hash map. -/
theorem elects_votingLabel {v : VId} (hlen : (nbrs v).length < 2 ^ 32) (ho : HashOrder)
    (labels : VId → VId) :
    Elects (labels v) (neighborVotes n nbrs labels v) (votingLabel n nbrs ho labels v) := by
  unfold votingLabel neighborVotes
  by_cases hv : nbrs v = []
  · rw [if_pos hv, hv]
    exact .inl ⟨rfl, rfl⟩
  · rw [if_neg hv]
    obtain ⟨hc, hm⟩ := foldl_countVote (n := n) labels (nbrs v) [] ∅ (by simpa using hlen)
      (fun a => by simp [VoteMap.get]) (fun a => by simp)
    simp only [nil_append] at hc hm
    refine elects_foldl (labels v) (fun a => ?_) fun a _ => hc a
    rw [(ho.perm _).mem_iff, hm]

theorem foldl_update_of_mem (f : VId → VId) (order : List VId) (next : VId → VId) {v : VId}
    (hv : v ∈ order) : order.foldl (fun next v => update next v (f v)) next v = f v := by
  induction order using reverseRecOn generalizing next with
  | nil => cases hv
  | append_singleton order u ih =>
    rw [foldl_append, foldl_cons, foldl_nil]
    by_cases h : v = u
    · subst h
      simp
    · rw [update_of_ne h]
      exact ih next ((mem_append.1 hv).resolve_right (by simpa using h))

/-! ## Both loops -/

/-- The loops agree on the labels of the vertices, from states that agree. -/
theorem cdlpLoop_votingLoop (hlen : ∀ v, v < n → (nbrs v).length < 2 ^ 32)
    {order order' : Nat → List VId} (ho : Nat → VId → HashOrder)
    (hperm : ∀ i, (order i).Perm (range n)) (hperm' : ∀ i, (order' i).Perm (range n))
    (left iteration : Nat) (st : CdlpState) (st' : VotingState) (htouched : st.Touched)
    (hlabels : ∀ v, v < n → st'.currentLabels v = st.labels v)
    (hchanged : st.changed = true ↔ 0 < st'.changed) :
    ∀ v, v < n → (votingLoop n nbrs order' ho left iteration st').currentLabels v =
      (cdlpLoop n nbrs order left iteration st).labels v := by
  induction left generalizing iteration st st' with
  | zero => exact hlabels
  | succ left ih =>
    unfold cdlpLoop votingLoop
    by_cases hc : st.changed = true
    · rw [if_pos hc, if_pos (hchanged.1 hc)]
      have hnd : (order iteration).Nodup := (hperm iteration).nodup_iff.2 nodup_range
      obtain ⟨ht, hl, hel, -, hch⟩ := @foldl_cdlpVertex n nbrs (order iteration)
        { st with changed := false } htouched hnd
      have hstep : LabelStep n nbrs st.labels ((order iteration).foldl (cdlpVertex n nbrs)
          { st with changed := false }).newLabels :=
        fun v hv => hel v ((hperm iteration).mem_iff.2 (mem_range.2 hv))
      -- the parallel loop writes the same labels
      set next := (order' iteration).foldl (fun next v => update next v
        (votingLabel n nbrs (ho iteration v) st'.currentLabels v)) st'.nextLabels with hnext
      have hstep' : LabelStep n nbrs st'.currentLabels next := by
        intro v hv
        rw [hnext, foldl_update_of_mem (fun v => votingLabel n nbrs (ho iteration v)
          st'.currentLabels v) _ _ ((hperm' iteration).mem_iff.2 (mem_range.2 hv))]
        exact elects_votingLabel (hlen v hv) _ _
      have heq := hstep.unique hlabels hstep'
      refine ih (iteration + 1) _ _ (by exact ht) heq ?_
      show _ = true ↔ 0 < _
      rw [hch, length_pos_iff_exists_mem]
      simp only [Bool.false_eq_true, false_or, mem_filter, mem_range, decide_eq_true_eq]
      constructor
      · rintro ⟨v, hv, hne⟩
        have hvn := mem_range.1 ((hperm iteration).mem_iff.1 hv)
        refine ⟨v, hvn, ?_⟩
        rw [hlabels v hvn, heq v hvn]
        exact Ne.symm hne
      · rintro ⟨v, hvn, hne⟩
        refine ⟨v, (hperm iteration).mem_iff.2 (mem_range.2 hvn), ?_⟩
        rw [hlabels v hvn, heq v hvn] at hne
        exact Ne.symm hne
    · rw [if_neg hc, if_neg fun h => hc (hchanged.2 h)]
      exact hlabels

end

/-- `cdlp` and `cdlp_voting_map` return the same labels, for every order of the vertices in each
iteration and every order of the hash maps. The degree of a vertex is a 32-bit number. -/
theorem cdlp_votingMap {cfg : Config} {db : Db}
    (hdeg : ∀ v, v < db.getVertexCount → (db.base cfg v).length < 2 ^ 32) (maxIterations : Nat)
    {order order' : Nat → List VId} (ho : Nat → VId → HashOrder)
    (hperm : ∀ i, (order i).Perm (List.range db.getVertexCount))
    (hperm' : ∀ i, (order' i).Perm (List.range db.getVertexCount)) :
    cdlpVotingMap db.getVertexCount (db.base cfg) maxIterations order' ho =
      cdlp db.getVertexCount (db.base cfg) maxIterations order := by
  unfold cdlpVotingMap cdlp
  by_cases hn : db.getVertexCount = 0
  · simp [hn]
  · rw [if_neg hn]
    refine List.map_congr_left fun v hv => ?_
    rw [cdlpLoop_votingLoop hdeg ho hperm hperm' maxIterations 0 ⟨id, id, fun _ => 0, [], true⟩
      ⟨id, id, db.getVertexCount⟩ (fun _ _ => rfl) (fun _ _ => rfl)
      (iff_of_true rfl (Nat.pos_of_ne_zero hn)) v (List.mem_range.1 hv)]

/-- Two iterations on the small graph, with the vertices in ascending and in descending order. -/
theorem cdlp_votingMap_slotDb :
    cdlpVotingMap slotDb.getVertexCount (slotDb.base slotConfig) 2
        (fun _ => (List.range slotDb.getVertexCount).reverse) (fun _ _ => .listed) =
      cdlp slotDb.getVertexCount (slotDb.base slotConfig) 2
        (fun _ => List.range slotDb.getVertexCount) :=
  cdlp_votingMap (by decide +kernel) 2 _ (fun _ => List.Perm.refl _)
    (fun _ => List.reverse_perm _)

end BwGraph
