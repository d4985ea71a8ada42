import BwGraph.Io.CsrObject
import BwGraph.Io.Delta

/-
  The first two steps of `csr_page_t::apply_deltas`: the adjacency of a page, and the records of a
  span applied to it in order. Every record changes the list of one vertex (`lookup_applyRecord`),
  so the list of a vertex after the span depends on its list before and on its own records
  (`lookup_foldl_applyRecord`).

  The page holds no neighbours of a giant vertex. `apply_deltas` starts from an empty list for it
  (`oldGraph`); `adjacency` has the list the giant store keeps. The two lead to different lists
  unless the vertex is deleted on the way (`lookup_erased`, `mem_of_not_erased`).
-/

namespace BwGraph

open Bytes List Option AList Nat

/-! ## One record -/

/-- One record of the second step of `apply_deltas`. -/
def applyRecord (graph : AdjMap) (record : DeltaRecord) : AdjMap :=
  match record.target, record.type with
  | .edge, .insert =>
    if record.first ∈ graph then
      if record.second ∈ graph.get record.first then graph
      else graph.insert record.first (graph.get record.first ++ [record.second])
    else graph
  | .edge, .delete =>
    if record.first ∈ graph then
      graph.insert record.first ((graph.get record.first).filter fun d => d ≠ record.second)
    else graph
  | .vertex, .insert => if record.first ∈ graph then graph else graph.insert record.first []
  | .vertex, .delete => graph.erase record.first

/-- What a record makes of the list of its vertex. -/
def DeltaRecord.onList (record : DeltaRecord) (list : Option (List VId)) : Option (List VId) :=
  match record.target, record.type with
  | .edge, .insert =>
    list.map fun nbrs => if record.second ∈ nbrs then nbrs else nbrs ++ [record.second]
  | .edge, .delete => list.map fun nbrs => nbrs.filter fun d => d ≠ record.second
  | .vertex, .insert => some (list.getD [])
  | .vertex, .delete => none

variable {graph : AdjMap} {record : DeltaRecord} {deltas : List DeltaRecord} {v x : VId}

theorem lookup_eq_get (h : v ∈ graph) : graph.lookup v = some (graph.get v) := by
  obtain ⟨nbrs, hn⟩ := isSome_iff_exists.1 (lookup_isSome.2 h)
  rw [AdjMap.get, hn]
  rfl

theorem lookup_applyRecord (graph : AdjMap) (record : DeltaRecord) (v : VId) :
    (applyRecord graph record).lookup v =
      if record.first = v then record.onList (graph.lookup v) else graph.lookup v := by
  by_cases hv : record.first = v
  · subst hv
    rw [if_pos rfl]
    unfold applyRecord DeltaRecord.onList
    by_cases hin : record.first ∈ graph
    · have hlook := lookup_eq_get hin
      cases record.target with
      | edge =>
        cases record.type with
        | insert =>
          dsimp only
          rw [if_pos hin, hlook, map_some]
          split_ifs
          · exact hlook
          · exact lookup_insert graph
        | delete =>
          dsimp only
          rw [if_pos hin, hlook, map_some]
          exact lookup_insert graph
      | vertex =>
        cases record.type with
        | insert =>
          dsimp only
          rw [if_pos hin, hlook]
          rfl
        | delete => exact lookup_erase record.first graph
    · have hlook := lookup_eq_none.2 hin
      cases record.target with
      | edge =>
        cases record.type with
        | insert =>
          dsimp only
          rw [if_neg hin, hlook]
          rfl
        | delete =>
          dsimp only
          rw [if_neg hin, hlook]
          rfl
      | vertex =>
        cases record.type with
        | insert =>
          dsimp only
          rw [if_neg hin, hlook]
          exact lookup_insert graph
        | delete => exact lookup_erase record.first graph
  · have hne : v ≠ record.first := fun h => hv h.symm
    rw [if_neg hv]
    unfold applyRecord
    split
    · split_ifs
      · rfl
      · exact lookup_insert_ne hne
      · rfl
    · split_ifs
      · exact lookup_insert_ne hne
      · rfl
    · split_ifs
      · rfl
      · exact lookup_insert_ne hne
    · exact lookup_erase_ne hne

/-! ## The records of a span -/

/-- What the records of a span make of the list of a vertex. -/
def listAfter (deltas : List DeltaRecord) (v : VId) (list : Option (List VId)) :
    Option (List VId) :=
  deltas.foldl (fun list record => if record.first = v then record.onList list else list) list

theorem lookup_foldl_applyRecord (deltas : List DeltaRecord) (graph : AdjMap) (v : VId) :
    (deltas.foldl applyRecord graph).lookup v = listAfter deltas v (graph.lookup v) := by
  induction deltas generalizing graph with
  | nil => rfl
  | cons record deltas ih =>
    rw [foldl_cons, ih, lookup_applyRecord, listAfter, listAfter, foldl_cons]

/-- The span deletes the vertex. -/
def Erased (deltas : List DeltaRecord) (v : VId) : Prop :=
  ∃ r ∈ deltas, r.target = .vertex ∧ r.type = .delete ∧ r.first = v

instance (deltas : List DeltaRecord) (v : VId) : Decidable (Erased deltas v) :=
  inferInstanceAs (Decidable (∃ r ∈ deltas, _))

/-- Once the vertex is deleted nothing is left of the list it had. -/
theorem lookup_erased (h : Erased deltas v) (list list' : Option (List VId)) :
    listAfter deltas v list = listAfter deltas v list' := by
  induction deltas generalizing list list' with
  | nil =>
    obtain ⟨r, hr, -⟩ := h
    cases hr
  | cons record deltas ih =>
    obtain ⟨r, hr, htarget, htype, hfirst⟩ := h
    rcases mem_cons.1 hr with rfl | hr
    · unfold listAfter
      rw [foldl_cons, foldl_cons, if_pos hfirst, if_pos hfirst, DeltaRecord.onList,
        DeltaRecord.onList, htarget, htype]
    · exact ih ⟨r, hr, htarget, htype, hfirst⟩ _ _

variable {list list' : Option (List VId)}

/-- Whether a vertex is there after a record does not depend on its list. -/
theorem isSome_onList (record : DeltaRecord) (h : list.isSome = list'.isSome) :
    (record.onList list).isSome = (record.onList list').isSome := by
  unfold DeltaRecord.onList
  split
  · rw [isSome_map, isSome_map, h]
  · rw [isSome_map, isSome_map, h]
  · rfl
  · rfl

theorem isSome_listAfter (h : list.isSome = list'.isSome) :
    (listAfter deltas v list).isSome = (listAfter deltas v list').isSome := by
  induction deltas generalizing list list' with
  | nil => exact h
  | cons record deltas ih =>
    unfold listAfter
    rw [foldl_cons, foldl_cons]
    refine ih ?_
    split_ifs
    · exact isSome_onList record h
    · exact h

/-- A neighbour no record is about stays in the list of a vertex that is not deleted, and comes into
no list. -/
theorem mem_of_not_erased (he : ¬ Erased deltas v) (hx : ∀ r ∈ deltas, r.second ≠ x)
    (nbrs : List VId) : ∃ nbrs', listAfter deltas v (some nbrs) = some nbrs' ∧
      (x ∈ nbrs' ↔ x ∈ nbrs) := by
  induction deltas generalizing nbrs with
  | nil => exact ⟨nbrs, rfl, Iff.rfl⟩
  | cons record deltas ih =>
    have hrest : ¬ Erased deltas v :=
      fun ⟨r, hr, hd⟩ => he ⟨r, mem_cons_of_mem _ hr, hd⟩
    have htail := ih hrest fun r hr => hx r (mem_cons_of_mem _ hr)
    have hne := hx record mem_cons_self
    have hone : ∃ nbrs', (if record.first = v then record.onList (some nbrs) else some nbrs) =
        some nbrs' ∧ (x ∈ nbrs' ↔ x ∈ nbrs) := by
      by_cases hv : record.first = v
      · rw [if_pos hv]
        unfold DeltaRecord.onList
        split
        · refine ⟨_, rfl, ?_⟩
          dsimp only
          split_ifs
          · exact Iff.rfl
          · rw [mem_append, mem_singleton]
            exact or_iff_left fun h => hne h.symm
        · refine ⟨_, rfl, ?_⟩
          rw [mem_filter, decide_eq_true_iff]
          exact and_iff_left fun h => hne h.symm
        · exact ⟨nbrs, rfl, Iff.rfl⟩
        · rename_i htarget htype
          exact absurd ⟨record, mem_cons_self, htarget, htype, hv⟩ he
      · rw [if_neg hv]
        exact ⟨nbrs, rfl, Iff.rfl⟩
    obtain ⟨nbrs1, h1, hmem1⟩ := hone
    obtain ⟨nbrs2, h2, hmem2⟩ := htail nbrs1
    refine ⟨nbrs2, ?_, hmem2.trans hmem1⟩
    unfold listAfter at h2 ⊢
    rw [foldl_cons, h1, h2]

/-! ## The adjacency of a page -/

namespace CsrObject

/-- The loop of the first step; `giants` yields the list of a giant vertex. -/
def listEntry (cfg : PageConfig) (obj : CsrObject) (giants : VId → List VId) (graph : AdjMap)
    (i : Nat) : AdjMap :=
  let vertex := obj.vertexAt i
  if vertex.isDeleted then graph
  else if vertex.degree ≥ cfg.giantDegreeBound then
    graph.insert vertex.vertexId (giants vertex.vertexId)
  else graph.insert vertex.vertexId (obj.readNeighbors cfg i)

/-- `old_graph` after the first step: a giant vertex is kept with an empty list. -/
def oldGraph (cfg : PageConfig) (obj : CsrObject) : AdjMap :=
  (List.range obj.vertexSpan.size).foldl (obj.listEntry cfg fun _ => []) ∅

/-- The adjacency of the page, with the lists of the giant vertices. -/
def adjacency (cfg : PageConfig) (obj : CsrObject) (giants : VId → List VId) : AdjMap :=
  (List.range obj.vertexSpan.size).foldl (obj.listEntry cfg giants) ∅

/-- The last of the first `n` entries of a vertex is that of a giant one. -/
def GiantAt (cfg : PageConfig) (obj : CsrObject) (n : Nat) (v : VId) (i : Nat) : Prop :=
  i < n ∧ (obj.vertexAt i).isDeleted = false ∧ (obj.vertexAt i).vertexId = v ∧
    cfg.giantDegreeBound ≤ (obj.vertexAt i).degree ∧
    ∀ j, i < j → j < n → (obj.vertexAt j).isDeleted = false → (obj.vertexAt j).vertexId ≠ v

variable {cfg : PageConfig} {obj : CsrObject} {giants giants' : VId → List VId} {n i : Nat}

theorem foldl_listEntry_succ : (range (n + 1)).foldl (obj.listEntry cfg giants) ∅ =
    obj.listEntry cfg giants ((range n).foldl (obj.listEntry cfg giants) ∅) n := by
  rw [range_succ, foldl_append]
  rfl

/-- The list of a giant vertex is the one given, that of any other vertex does not depend on the
lists given. -/
theorem lookup_foldl_listEntry (cfg : PageConfig) (obj : CsrObject) (v : VId) (n : Nat) :
    (∃ i, obj.GiantAt cfg n v i ∧ ∀ giants : VId → List VId,
      ((range n).foldl (obj.listEntry cfg giants) ∅).lookup v = some (giants v)) ∨
    ((∀ i, ¬ obj.GiantAt cfg n v i) ∧ ∃ list, ∀ giants : VId → List VId,
      ((range n).foldl (obj.listEntry cfg giants) ∅).lookup v = list) := by
  induction n with
  | zero => exact .inr ⟨fun i hi => absurd hi.1 (Nat.not_lt_zero i), none, fun _ => rfl⟩
  | succ n ih =>
    simp only [foldl_listEntry_succ]
    -- an entry of another vertex, or a deleted one, changes nothing
    have hskip : ((obj.vertexAt n).isDeleted = false → (obj.vertexAt n).vertexId ≠ v) →
        (∀ i, obj.GiantAt cfg (n + 1) v i ↔ obj.GiantAt cfg n v i) ∧
        ∀ (giants : VId → List VId) (graph : AdjMap),
          (obj.listEntry cfg giants graph n).lookup v = graph.lookup v := by
      intro hother
      refine ⟨fun i => ⟨fun h => ?_, fun h => ?_⟩, fun giants graph => ?_⟩
      · obtain ⟨hi, hlive, hid, hdeg, hlast⟩ := h
        have hne : i ≠ n := fun hc => hother (hc ▸ hlive) (hc ▸ hid)
        exact ⟨by omega, hlive, hid, hdeg, fun j hij hj => hlast j hij (lt_succ_of_lt hj)⟩
      · obtain ⟨hi, hlive, hid, hdeg, hlast⟩ := h
        refine ⟨lt_succ_of_lt hi, hlive, hid, hdeg, fun j hij hj => ?_⟩
        rcases Nat.lt_succ_iff_lt_or_eq.1 hj with hj | rfl
        · exact hlast j hij hj
        · exact hother
      · unfold listEntry
        dsimp only
        split_ifs with hdel
        · rfl
        · exact lookup_insert_ne fun h => hother (Bool.eq_false_of_not_eq_true hdel) h.symm
        · exact lookup_insert_ne fun h => hother (Bool.eq_false_of_not_eq_true hdel) h.symm
    by_cases hother : (obj.vertexAt n).isDeleted = false → (obj.vertexAt n).vertexId ≠ v
    · obtain ⟨hgiant, hlook⟩ := hskip hother
      simp only [hgiant, hlook]
      exact ih
    · obtain ⟨hlive, hid⟩ := Classical.not_imp.1 hother
      obtain rfl := not_not.1 hid
      have hdel : ¬ (obj.vertexAt n).isDeleted = true := by rw [hlive]; decide
      by_cases hg : (obj.vertexAt n).degree ≥ cfg.giantDegreeBound
      · refine .inl ⟨n, ⟨lt_succ_self n, hlive, rfl, hg, fun j h1 h2 => by omega⟩,
          fun giants => ?_⟩
        unfold listEntry
        dsimp only
        rw [if_neg hdel, if_pos hg]
        exact lookup_insert _
      · refine .inr ⟨fun i hi => ?_, some (obj.readNeighbors cfg n), fun giants => ?_⟩
        · obtain ⟨hlt, -, -, hdeg, hlast⟩ := hi
          by_cases hin : i = n
          · exact hg (hin ▸ hdeg)
          · exact hlast n (by omega) (lt_succ_self n) hlive rfl
        · unfold listEntry
          dsimp only
          rw [if_neg hdel, if_neg hg]
          exact lookup_insert _

/-! ## Widths -/

theorem wordWrite_lt (n : Nat) : ∀ b ∈ wordWrite n, b < 256 := by
  simp [wordWrite, byte_lt]

theorem ptvWriteSlot_lt (id : VId) : ∀ b ∈ ptvWriteSlot id, b < 256 := by
  simp [ptvWriteSlot, byte_lt]

theorem ptvWrite_lt (id : VId) : ∀ b ∈ ptvWrite id, b < 256 := by
  unfold ptvWrite
  split
  · simp [byte_lt]
  · simp [byte_lt]
  · simp [byte_lt]
  · simp [byte_lt]

theorem append_lt {bs cs : List Nat} (hb : ∀ b ∈ bs, b < 256) (hc : ∀ b ∈ cs, b < 256) :
    ∀ b ∈ bs ++ cs, b < 256 := fun b h => (mem_append.1 h).elim (hb b) (hc b)

theorem flatMap_lt {α : Type} {f : α → List Nat} (items : List α)
    (h : ∀ a ∈ items, ∀ b ∈ f a, b < 256) : ∀ b ∈ items.flatMap f, b < 256 := by
  intro b hb
  obtain ⟨a, ha, hba⟩ := mem_flatMap.1 hb
  exact h a ha b hba

theorem replicate_lt (n : Nat) : ∀ b ∈ replicate n 0, b < 256 := by
  intro b hb
  rw [eq_of_mem_replicate hb]
  decide

theorem block_lt (cfg : Config) (slots : VId → Nat) (item : VId × List VId) :
    ∀ b ∈ block cfg slots item, b < 256 := by
  unfold block neighborBytes
  rw [← flatMap_id, ← flatMap_id]
  split_ifs
  · exact fun b hb => absurd hb not_mem_nil
  · refine append_lt (flatMap_lt _ fun d _ => ptvWrite_lt d) (flatMap_lt _ fun bs hbs => ?_)
    rw [eq_of_mem_replicate hbs]
    exact ptvWriteSlot_lt 0
  · refine append_lt (flatMap_lt _ fun d _ => wordWrite_lt d) (flatMap_lt _ fun bs hbs => ?_)
    rw [eq_of_mem_replicate hbs]
    exact wordWrite_lt 0

variable {buf : List Nat}

/-- A byte of the data, or the zero behind it. -/
theorem getD_lt (h : ∀ b ∈ buf, b < 256) (i : Nat) : buf.getD i 0 < 2 ^ 8 := by
  rcases Nat.lt_or_ge i buf.length with hlt | hge
  · rw [getD_eq_getElem _ _ hlt]
    exact h _ (getElem_mem hlt)
  · rw [getD_eq_default _ _ hge]
    decide

theorem shiftLeft_lt {b k n : Nat} (hb : b < 2 ^ k) : b <<< n < 2 ^ (k + n) := by
  rw [shiftLeft_eq, Nat.pow_add]
  exact Nat.mul_lt_mul_of_pos_right hb (Nat.two_pow_pos n)

section

variable (h : ∀ b ∈ buf, b < 256)
include h

theorem wordRead_lt : wordRead buf < 2 ^ 32 := by
  have hb := getD_lt h
  have h0 : buf.getD 0 0 < 2 ^ 32 := Nat.lt_of_lt_of_le (hb 0) (by decide)
  have h1 : buf.getD 1 0 <<< 8 < 2 ^ 32 := Nat.lt_of_lt_of_le (shiftLeft_lt (hb 1)) (by decide)
  have h2 : buf.getD 2 0 <<< 16 < 2 ^ 32 := Nat.lt_of_lt_of_le (shiftLeft_lt (hb 2)) (by decide)
  have h3 : buf.getD 3 0 <<< 24 < 2 ^ 32 := shiftLeft_lt (hb 3)
  exact or_lt_two_pow (or_lt_two_pow (or_lt_two_pow h0 h1) h2) h3

theorem ptvRead_lt : (ptvRead buf).1 < 2 ^ 30 := by
  have hb := getD_lt h
  have hlow : buf.getD 0 0 &&& 0x3F < 2 ^ 6 := lt_succ_of_le and_le_right
  have hof : ∀ {b k n : Nat}, b < 2 ^ k → k + n ≤ 30 → b <<< n < 2 ^ 30 := fun hb hle =>
    Nat.lt_of_lt_of_le (shiftLeft_lt hb) (Nat.pow_le_pow_right (by decide) hle)
  have hone : ∀ i, buf.getD i 0 < 2 ^ 30 := fun i => Nat.lt_of_lt_of_le (hb i) (by decide)
  unfold ptvRead
  dsimp only
  split
  · exact Nat.lt_of_lt_of_le hlow (by decide)
  · exact or_lt_two_pow (hof hlow (by decide)) (hone 1)
  · exact or_lt_two_pow (or_lt_two_pow (hof hlow (by decide)) (hof (hb 1) (by decide)))
      (hone 2)
  · exact or_lt_two_pow (or_lt_two_pow (or_lt_two_pow (hof hlow (by decide))
      (hof (hb 1) (by decide))) (hof (hb 2) (by decide))) (hone 3)

theorem drop_lt (k : Nat) : ∀ b ∈ buf.drop k, b < 256 :=
  fun b hb => h b (mem_of_mem_drop hb)

theorem wordReads_lt (count : Nat) : ∀ d ∈ wordReads count buf, d < 2 ^ 32 := by
  induction count generalizing buf with
  | zero => exact fun d hd => absurd hd not_mem_nil
  | succ count ih =>
    intro d hd
    rw [wordReads] at hd
    rcases mem_cons.1 hd with rfl | hd
    · exact wordRead_lt h
    · exact ih (drop_lt h _) d hd

theorem ptvReads_lt (count : Nat) : ∀ d ∈ ptvReads count buf, d < 2 ^ 30 := by
  induction count generalizing buf with
  | zero => exact fun d hd => absurd hd not_mem_nil
  | succ count ih =>
    intro d hd
    rw [ptvReads] at hd
    rcases mem_cons.1 hd with rfl | hd
    · exact ptvRead_lt h
    · exact ih (drop_lt h _) d hd

end

/-- What a reader of a page finds fits the encoding of the build. -/
theorem readNeighbors_lt (h : ∀ b ∈ obj.data.drop obj.neighborPos, b < 256) (i : Nat) :
    ∀ d ∈ obj.readNeighbors cfg i, d < cfg.idLimit := by
  have hdrop : ∀ k, ∀ b ∈ obj.data.drop (obj.neighborPos + k), b < 256 := by
    intro k
    rw [← drop_drop]
    exact drop_lt h k
  unfold readNeighbors
  cases hcomp : cfg.neighborCompress with
  | true =>
    rw [if_pos rfl, PtvNeighborRange.collect_fst, Config.idLimit, hcomp, if_pos rfl]
    unfold getNeighborPtvRange
    dsimp only
    split_ifs
    · exact fun d hd => absurd hd not_mem_nil
    · exact fun d hd => absurd hd not_mem_nil
    · exact ptvReads_lt (hdrop _) _
  | false =>
    rw [if_neg Bool.false_ne_true, Config.idLimit, hcomp, if_neg Bool.false_ne_true]
    unfold getNeighbors
    dsimp only
    split_ifs
    · exact fun d hd => absurd hd not_mem_nil
    · exact fun d hd => absurd hd not_mem_nil
    · exact wordReads_lt (hdrop _) _

theorem Built.readNeighbors_lt {slots : VId → Nat} {items : List (VId × List VId)}
    (h : obj.Built cfg slots items) (i : Nat) : ∀ d ∈ obj.readNeighbors cfg i, d < cfg.idLimit := by
  obtain ⟨n, hn⟩ := h.neighbors
  refine CsrObject.readNeighbors_lt ?_ i
  rw [hn]
  exact append_lt (flatMap_lt items fun it _ => block_lt cfg.toConfig slots it) (replicate_lt n)

theorem vertexId_lt (h : ∀ b ∈ obj.data, b < 256) (i : Nat) :
    (obj.vertexAt i).vertexId < 2 ^ 32 := wordRead_lt (drop_lt h _)

/-- The ids of the graph after the first step. -/
theorem foldl_listEntry_lt (h : ∀ b ∈ obj.data, b < 256) (n : Nat) (v : VId)
    (hv : v ∈ (range n).foldl (obj.listEntry cfg giants) ∅) : v < 2 ^ 32 := by
  induction n with
  | zero => cases hv
  | succ n ih =>
    rw [foldl_listEntry_succ, listEntry] at hv
    split_ifs at hv
    · exact ih hv
    · rcases mem_insert _ |>.1 hv with rfl | hv
      · exact vertexId_lt h n
      · exact ih hv
    · rcases mem_insert _ |>.1 hv with rfl | hv
      · exact vertexId_lt h n
      · exact ih hv

end CsrObject

/-- A list changes by the records of its vertex only. -/
theorem listAfter_of_not_mem (h : ∀ r ∈ deltas, r.first ≠ v) (list : Option (List VId)) :
    listAfter deltas v list = list := by
  induction deltas with
  | nil => rfl
  | cons record deltas ih =>
    unfold listAfter
    rw [foldl_cons, if_neg (h record mem_cons_self)]
    exact ih fun r hr => h r (mem_cons_of_mem _ hr)

/-- The ids of the graph after the second step. -/
theorem foldl_applyRecord_lt {cfg : PageConfig} {obj : CsrObject} (h : ∀ b ∈ obj.data, b < 256)
    (hfirst : ∀ r ∈ deltas, r.first < 2 ^ 32)
    (hv : v ∈ deltas.foldl applyRecord (obj.oldGraph cfg)) : v < 2 ^ 32 := by
  by_cases hmem : ∃ r ∈ deltas, r.first = v
  · obtain ⟨r, hr, rfl⟩ := hmem
    exact hfirst r hr
  · rw [← lookup_isSome, lookup_foldl_applyRecord,
      listAfter_of_not_mem fun r hr hc => hmem ⟨r, hr, hc⟩, lookup_isSome] at hv
    exact CsrObject.foldl_listEntry_lt h _ v hv

end BwGraph
