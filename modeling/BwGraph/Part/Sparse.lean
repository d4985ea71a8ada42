import Mathlib.Data.List.Induction
import BwGraph.Lib.RankedForest
import BwGraph.Part.BlockGraph

/-
  What `graph_sparsification` (`partition.h`) returns. Both phases add edges of the input between
  blocks that are below the degree bound: the first one those that join two trees of a union-find
  forest, the second one every edge that is not there yet. Each pair of blocks stands once in the
  list of edges, so the first phase cannot add an edge twice; the second one looks it up.

  The result is symmetric, has no repeated edge, keeps the degree bound and is maximal
  (`graphSparsification_sound`). The ranks of the forest grow along the parents, so `find_root`
  ends.
-/

namespace BwGraph

open Function List AList

open RankedForest

theorem edgePair_comm (u v : PageNo) : edgePair u v = edgePair v u := by
  unfold edgePair
  rw [min_comm, max_comm]

theorem edgePair_eq {u v u' v' : PageNo} (h : edgePair u v = edgePair u' v') :
    (u = u' ∧ v = v') ∨ (u = v' ∧ v = u') := by
  obtain ⟨h1, h2⟩ := Prod.ext_iff.1 h
  simp only [edgePair] at h1 h2
  unfold PageNo at *
  omega

/-! ## The edges of the input -/

/-- The pair of a collected edge. -/
def ScoredEdge.pair (e : ScoredEdge) : PageNo × PageNo := edgePair e.2.1 e.2.2

/-- What the scan keeps: the collected edges are edges of the list, no pair twice, and every pair
of the list is collected. -/
structure Collects (edges : List (PageNo × PageNo))
    (acc : List (PageNo × PageNo) × List ScoredEdge) : Prop where
  pairs : ∀ p, p ∈ acc.1 ↔ ∃ e ∈ acc.2, ScoredEdge.pair e = p
  nodup : (acc.2.map ScoredEdge.pair).Nodup
  mem : ∀ e ∈ acc.2, (e.2.1, e.2.2) ∈ edges
  all : ∀ e ∈ edges, ∃ e' ∈ acc.2, ScoredEdge.pair e' = edgePair e.1 e.2

variable {acc : List (PageNo × PageNo) × List ScoredEdge} {edges : List (PageNo × PageNo)}

theorem Collects.step (graph : BlockAdjMap) (h : Collects edges acc) (e : PageNo × PageNo) :
    Collects (edges ++ [e]) (collectEdge graph acc e) := by
  unfold collectEdge
  split_ifs with hp
  · refine ⟨h.pairs, h.nodup, fun x hx => mem_append_left _ (h.mem x hx), fun x hx => ?_⟩
    rcases mem_append.1 hx with hx | hx
    · exact h.all x hx
    · rw [mem_singleton.1 hx]
      exact (h.pairs _).1 hp
  · have hnew : ∀ x : ScoredEdge, x ∈ acc.2 → ScoredEdge.pair x ≠ edgePair e.1 e.2 :=
      fun x hx he => hp ((h.pairs _).2 ⟨x, hx, he⟩)
    constructor
    · intro p
      rw [mem_cons, h.pairs]
      constructor
      · rintro (rfl | ⟨x, hx, rfl⟩)
        · exact ⟨_, mem_append_right _ mem_cons_self, rfl⟩
        · exact ⟨x, mem_append_left _ hx, rfl⟩
      · rintro ⟨x, hx, rfl⟩
        rcases mem_append.1 hx with hx | hx
        · exact .inr ⟨x, hx, rfl⟩
        · rw [mem_singleton.1 hx]
          exact .inl rfl
    · rw [map_append, nodup_append]
      refine ⟨h.nodup, by simp, fun a ha b hb hab => ?_⟩
      obtain ⟨x, hx, rfl⟩ := mem_map.1 ha
      rw [map_singleton, mem_singleton] at hb
      exact hnew x hx (hab.trans hb)
    · intro x hx
      rcases mem_append.1 hx with hx | hx
      · exact mem_append_left _ (h.mem x hx)
      · rw [mem_singleton.1 hx]
        exact mem_append_right _ mem_cons_self
    · intro x hx
      rcases mem_append.1 hx with hx | hx
      · obtain ⟨x', hx', he⟩ := h.all x hx
        exact ⟨x', mem_append_left _ hx', he⟩
      · rw [mem_singleton.1 hx]
        exact ⟨_, mem_append_right _ mem_cons_self, rfl⟩

theorem Collects.foldl (graph : BlockAdjMap) (es : List (PageNo × PageNo)) (h : Collects edges acc) :
    Collects (edges ++ es) (es.foldl (collectEdge graph) acc) := by
  induction es generalizing edges acc with
  | nil => simpa using h
  | cons e es ih =>
    have := ih (h.step graph e)
    simpa using this

/-- The edges are those of the input, each pair once. -/
theorem edgesWithScores_spec (ho : HashOrder) (graph : BlockAdjMap) :
    ((edgesWithScores ho graph).map ScoredEdge.pair).Nodup ∧
      (∀ e ∈ edgesWithScores ho graph, e.2.1 ∈ graph ∧ e.2.2 ∈ getNeighborPages graph e.2.1) ∧
      ∀ u ∈ graph, ∀ v ∈ getNeighborPages graph u,
        ∃ e ∈ edgesWithScores ho graph, ScoredEdge.pair e = edgePair u v := by
  have hstart : Collects [] (([], []) : List (PageNo × PageNo) × List ScoredEdge) :=
    ⟨by simp, nodup_nil, by simp, by simp⟩
  have h := hstart.foldl graph ((ho.order graph.keys).flatMap fun u =>
    (getNeighborPages graph u).map fun v => (u, v))
  rw [nil_append] at h
  rw [edgesWithScores_eq]
  refine ⟨h.nodup, fun e he => ?_, fun u hu v hv => h.all (u, v) ?_⟩
  · obtain ⟨u, hu, hm⟩ := mem_flatMap.1 (h.mem e he)
    obtain ⟨v, hv, huv⟩ := mem_map.1 hm
    obtain ⟨rfl, rfl⟩ := Prod.ext_iff.1 huv
    exact ⟨(ho.perm _).mem_iff.1 hu, hv⟩
  · exact mem_flatMap.2 ⟨u, (ho.perm _).mem_iff.2 hu, mem_map.2 ⟨v, hv, rfl⟩⟩

/-! ## Adding an edge -/

namespace SparseState

/-- What both phases keep: a symmetric graph of input edges without repetitions, its degrees, and
their bound. -/
structure Inv (graph : BlockAdjMap) (maxDegree : Nat) (s : SparseState) : Prop where
  keys : ∀ k, k ∈ s.result ↔ k ∈ graph
  degree : ∀ k, s.currentDegrees k = (getNeighborPages s.result k).length
  bound : ∀ k, s.currentDegrees k ≤ maxDegree
  symm : ∀ u v, v ∈ getNeighborPages s.result u → u ∈ getNeighborPages s.result v
  nodup : ∀ u, (getNeighborPages s.result u).Nodup
  edge : ∀ u v, v ∈ getNeighborPages s.result u →
    v ∈ getNeighborPages graph u ∨ u ∈ getNeighborPages graph v

variable {graph : BlockAdjMap} {maxDegree : Nat} {s : SparseState} {u v : PageNo}

theorem getNeighborPages_insert (m : BlockAdjMap) (k k' : PageNo) (l : List PageNo) :
    getNeighborPages (m.insert k l) k' = if k' = k then l else getNeighborPages m k' := by
  split_ifs with h
  · rw [h]
    simp [getNeighborPages]
  · simp [getNeighborPages, lookup_insert_ne h]

/-- Both endpoints have room. -/
def Room (s : SparseState) (maxDegree : Nat) (u v : PageNo) : Prop :=
  s.currentDegrees u < maxDegree ∧ s.currentDegrees v < maxDegree

theorem tryAddEdge_of_room (hroom : s.Room maxDegree u v) :
    s.tryAddEdge maxDegree u v =
      let result := s.result.insert u (getNeighborPages s.result u ++ [v])
      let degrees := update s.currentDegrees u (s.currentDegrees u + 1)
      { s with
        result := result.insert v (getNeighborPages result v ++ [u])
        currentDegrees := update degrees v (degrees v + 1) } := if_pos hroom

section

variable (huv : u ≠ v) (hroom : s.Room maxDegree u v)
include huv hroom

/-- The lists after an edge was added. -/
theorem neighbors_tryAddEdge (k : PageNo) :
    getNeighborPages (s.tryAddEdge maxDegree u v).result k =
      if k = v then getNeighborPages s.result v ++ [u]
      else if k = u then getNeighborPages s.result u ++ [v] else getNeighborPages s.result k := by
  rw [tryAddEdge_of_room hroom]
  dsimp only
  rw [getNeighborPages_insert, getNeighborPages_insert, getNeighborPages_insert, if_neg huv.symm]

theorem degrees_tryAddEdge (k : PageNo) :
    (s.tryAddEdge maxDegree u v).currentDegrees k =
      if k = v then s.currentDegrees v + 1
      else if k = u then s.currentDegrees u + 1 else s.currentDegrees k := by
  rw [tryAddEdge_of_room hroom]
  dsimp only
  rw [update_apply, update_of_ne huv.symm, update_apply]

/-- The edges after one was added. -/
theorem mem_neighbors_tryAddEdge (a b : PageNo) :
    b ∈ getNeighborPages (s.tryAddEdge maxDegree u v).result a ↔
      b ∈ getNeighborPages s.result a ∨ (a = u ∧ b = v) ∨ (a = v ∧ b = u) := by
  rw [neighbors_tryAddEdge huv hroom]
  split_ifs with h1 h2
  · subst h1
    simp [huv.symm]
  · subst h2
    simp [huv]
  · simp [h1, h2]

end

/-- A new edge of the input, between two different blocks with room. -/
theorem Inv.tryAddEdge (h : s.Inv graph maxDegree) (huv : u ≠ v) (hroom : s.Room maxDegree u v)
    (hu : u ∈ graph) (hv : v ∈ graph) (hnew : v ∉ getNeighborPages s.result u)
    (hin : v ∈ getNeighborPages graph u) : (s.tryAddEdge maxDegree u v).Inv graph maxDegree := by
  have hnew' : u ∉ getNeighborPages s.result v := fun hm => hnew (h.symm v u hm)
  constructor
  · intro k
    have hk : k ∈ (s.tryAddEdge maxDegree u v).result ↔ k = v ∨ k = u ∨ k ∈ s.result := by
      rw [tryAddEdge_of_room hroom]
      dsimp only
      rw [mem_insert, mem_insert]
    rw [hk, h.keys]
    constructor
    · rintro (rfl | rfl | hk)
      · exact hv
      · exact hu
      · exact hk
    · exact fun hk => .inr (.inr hk)
  · intro k
    rw [degrees_tryAddEdge huv hroom, neighbors_tryAddEdge huv hroom, h.degree, h.degree, h.degree]
    split_ifs <;> simp
  · intro k
    have := h.bound k
    obtain ⟨h1, h2⟩ := hroom
    rw [degrees_tryAddEdge huv ⟨h1, h2⟩]
    split_ifs <;> omega
  · intro a b hb
    rw [mem_neighbors_tryAddEdge huv hroom] at hb ⊢
    rcases hb with hb | ⟨rfl, rfl⟩ | ⟨rfl, rfl⟩
    · exact .inl (h.symm a b hb)
    · exact .inr (.inr ⟨rfl, rfl⟩)
    · exact .inr (.inl ⟨rfl, rfl⟩)
  · intro k
    have happ : ∀ (l : List PageNo) (x : PageNo), l.Nodup → x ∉ l → (l ++ [x]).Nodup := by
      intro l x hl hx
      rw [← concat_eq_append]
      exact hl.concat hx
    rw [neighbors_tryAddEdge huv hroom]
    split_ifs
    · exact happ _ _ (h.nodup v) hnew'
    · exact happ _ _ (h.nodup u) hnew
    · exact h.nodup k
  · intro a b hb
    rw [mem_neighbors_tryAddEdge huv hroom] at hb
    rcases hb with hb | ⟨rfl, rfl⟩ | ⟨rfl, rfl⟩
    · exact h.edge a b hb
    · exact .inl hin
    · exact .inr hin

/-! ## The forest -/

/-- The parents of the blocks are ranked. -/
def Forested (graph : BlockAdjMap) (s : SparseState) : Prop :=
  Ranked graph.keys s.parent s.rank

variable {root : PageNo}

/-- The climb ends at a root above every block it passed, none of which is a root. -/
theorem Forested.rootPath (h : s.Forested graph) (fuel : Nat) {x : PageNo} (hx : x ∈ graph.keys)
    (hf : higher graph.keys s.rank x ≤ fuel) {path : List PageNo}
    (hp : SparseState.rootPath s.parent fuel x = (path, root)) :
    root ∈ graph.keys ∧ s.parent root = root ∧ s.rank x ≤ s.rank root ∧
      ∀ y ∈ path, s.parent y ≠ y ∧ s.rank y < s.rank root := by
  induction fuel generalizing x path root with
  | zero =>
    have : 0 < higher graph.keys s.rank x := higher_pos hx
    omega
  | succ fuel ih =>
    unfold SparseState.rootPath at hp
    split_ifs at hp with hroot
    · obtain ⟨rfl, rfl⟩ := Prod.ext_iff.1 hp
      exact ⟨hx, hroot, Nat.le_refl _, by simp⟩
    · have hlt := h.higher_parent_lt hx hroot
      have hclimb := h.climbs x hx hroot
      rcases hq : SparseState.rootPath s.parent fuel (s.parent x) with ⟨path', root'⟩
      obtain ⟨h1, h2, htop, h3⟩ := ih (h.closed x hx) (by omega) hq
      rw [hq] at hp
      obtain ⟨rfl, rfl⟩ : x :: path' = path ∧ root' = root := Prod.ext_iff.1 hp
      refine ⟨h1, h2, by omega, fun y hy => ?_⟩
      rcases mem_cons.1 hy with rfl | hy
      · exact ⟨hroot, by omega⟩
      · exact h3 y hy

/-- `find_root` ends at a root. It leaves a ranked forest with the same roots and ranks, and the
graph as it was. -/
structure Found (graph : BlockAdjMap) (s : SparseState) (root : PageNo) (s' : SparseState) :
    Prop where
  mem : root ∈ graph.keys
  fixed : s.parent root = root
  forested : s'.Forested graph
  roots : ∀ r, s.parent r = r → s'.parent r = r
  result : s'.result = s.result
  degrees : s'.currentDegrees = s.currentDegrees

theorem Forested.findRoot (h : s.Forested graph) {x : PageNo} (hx : x ∈ graph.keys) :
    Found graph s (s.findRoot graph.keys.length x).1 (s.findRoot graph.keys.length x).2 := by
  rcases hp : SparseState.rootPath s.parent graph.keys.length x with ⟨path, root⟩
  obtain ⟨h1, h2, -, h3⟩ := h.rootPath _ hx (higher_le x) hp
  have heq : s.findRoot graph.keys.length x =
      (root, { s with parent := fun y => if y ∈ path then root else s.parent y }) := by
    unfold SparseState.findRoot
    rw [hp]
  rw [heq]
  refine ⟨h1, h2, h.compress h1 fun y hy => (h3 y hy).2, fun r hr => ?_, rfl, rfl⟩
  dsimp only
  rw [if_neg fun hm => (h3 r hm).1 hr]
  exact hr

/-- Only the forest changes. -/
structure SameGraph (s s' : SparseState) : Prop where
  result : s'.result = s.result
  degrees : s'.currentDegrees = s.currentDegrees

theorem SameGraph.trans {s1 s2 s3 : SparseState} (h : SameGraph s1 s2) (h' : SameGraph s2 s3) :
    SameGraph s1 s3 := ⟨h'.result.trans h.result, h'.degrees.trans h.degrees⟩

theorem Found.same {s' : SparseState} (h : Found graph s root s') :
    SameGraph s s' := ⟨h.result, h.degrees⟩

theorem Forested.unionSets (h : s.Forested graph) {x y : PageNo} (hx : x ∈ graph.keys)
    (hy : y ∈ graph.keys) :
    (s.unionSets graph.keys.length x y).2.Forested graph ∧
      SameGraph s (s.unionSets graph.keys.length x y).2 := by
  have hfx := h.findRoot hx
  have hfy := hfx.forested.findRoot hy
  have hsame := hfx.same.trans hfy.same
  unfold SparseState.unionSets
  dsimp only
  split_ifs with he hlt hgt
  · exact ⟨hfy.forested, hsame⟩
  · exact ⟨hfy.forested.link hfy.mem hlt, hsame.result, hsame.degrees⟩
  · exact ⟨hfy.forested.link hfx.mem hgt, hsame.result, hsame.degrees⟩
  · have hroot := hfy.roots _ (hfx.roots _ hfx.fixed)
    exact ⟨hfy.forested.linkEqual hfx.mem hroot he (by omega), hsame.result, hsame.degrees⟩

theorem tryAddEdge_forest (maxDegree : Nat) (s : SparseState) (u v : PageNo) :
    (s.tryAddEdge maxDegree u v).parent = s.parent ∧
      (s.tryAddEdge maxDegree u v).rank = s.rank := by
  unfold tryAddEdge
  split_ifs <;> exact ⟨rfl, rfl⟩

theorem tryAddEdge_congr {s s' : SparseState} (h : SameGraph s s') (maxDegree : Nat)
    (u v : PageNo) : SameGraph (s.tryAddEdge maxDegree u v) (s'.tryAddEdge maxDegree u v) := by
  unfold tryAddEdge
  rw [h.result, h.degrees]
  split_ifs
  · exact ⟨rfl, rfl⟩
  · exact h

variable (maxDegree) in
/-- What one edge of the first phase does: the forest stays ranked, and the graph is left alone or
gets the edge, if both endpoints have room. -/
theorem Forested.treeEdge (h : s.Forested graph) {e : ScoredEdge} (hu : e.2.1 ∈ graph.keys)
    (hv : e.2.2 ∈ graph.keys) :
    (s.treeEdge graph.keys.length maxDegree e).Forested graph ∧
      (SameGraph s (s.treeEdge graph.keys.length maxDegree e) ∨
        s.Room maxDegree e.2.1 e.2.2 ∧ SameGraph (s.tryAddEdge maxDegree e.2.1 e.2.2)
          (s.treeEdge graph.keys.length maxDegree e)) := by
  have hfu := h.findRoot hu
  have hfv := hfu.forested.findRoot hv
  have hsame := hfu.same.trans hfv.same
  obtain ⟨hforest, hunion⟩ := hfv.forested.unionSets hu hv
  have hsame' := hsame.trans hunion
  unfold SparseState.treeEdge
  dsimp only
  split_ifs with hdone hjoin hjoined
  · exact ⟨h, .inl ⟨rfl, rfl⟩⟩
  · refine ⟨?_, .inr ⟨?_, ?_⟩⟩
    · obtain ⟨hp, hr⟩ := tryAddEdge_forest maxDegree
        (SparseState.unionSets graph.keys.length ((s.findRoot graph.keys.length e.2.1).2.findRoot
          graph.keys.length e.2.2).2 e.2.1 e.2.2).2 e.2.1 e.2.2
      unfold Forested at hforest ⊢
      dsimp only
      rw [hp, hr]
      exact hforest
    · rw [hsame.degrees] at hjoin
      exact hjoin.2
    · have hc := tryAddEdge_congr hsame' maxDegree e.2.1 e.2.2
      exact ⟨hc.result, hc.degrees⟩
  · exact ⟨hforest, .inl hsame'⟩
  · exact ⟨hfv.forested, .inl hsame⟩

/-! ## The two phases -/

theorem Inv.congr {s s' : SparseState} (h : s.Inv graph maxDegree) (hs : SameGraph s s') :
    s'.Inv graph maxDegree := by
  obtain ⟨hr, hd⟩ := hs
  exact ⟨by rw [hr]; exact h.keys, by rw [hr, hd]; exact h.degree, by rw [hd]; exact h.bound,
    by rw [hr]; exact h.symm, by rw [hr]; exact h.nodup, by rw [hr]; exact h.edge⟩

/-- An input graph the sparsification may be given. -/
structure Simple (graph : BlockAdjMap) : Prop where
  closed : ∀ u ∈ graph, ∀ v ∈ getNeighborPages graph u, v ∈ graph
  loopless : ∀ u, u ∉ getNeighborPages graph u

/-- The locals before the first phase. -/
def start (graph : BlockAdjMap) : SparseState :=
  ⟨BlockAdjMap.reserve ∅ graph.keys, fun _ => 0, id, fun _ => 0, 0⟩

theorem start_neighbors (graph : BlockAdjMap) (k : PageNo) :
    getNeighborPages (start graph).result k = [] := by
  unfold start
  dsimp only
  rw [BlockAdjMap.getNeighborPages_reserve]
  rfl

theorem start_inv (graph : BlockAdjMap) (maxDegree : Nat) : (start graph).Inv graph maxDegree := by
  constructor
  · intro k
    exact BlockAdjMap.mem_reserve.trans (by simp [AList.mem_keys])
  · intro k
    rw [start_neighbors]
    rfl
  · exact fun _ => Nat.zero_le _
  · intro u v hv
    rw [start_neighbors] at hv
    cases hv
  · intro u
    rw [start_neighbors]
    exact nodup_nil
  · intro u v hv
    rw [start_neighbors] at hv
    cases hv

/-- An edge list of the input, every pair of blocks once. -/
structure Lists (graph : BlockAdjMap) (edges : List ScoredEdge) : Prop where
  nodup : (edges.map ScoredEdge.pair).Nodup
  fst : ∀ e ∈ edges, e.2.1 ∈ graph
  snd : ∀ e ∈ edges, e.2.2 ∈ getNeighborPages graph e.2.1

/-- The first phase: the edges so far come from the edges `done`. -/
structure Grown (graph : BlockAdjMap) (maxDegree : Nat) (done : List ScoredEdge)
    (s : SparseState) : Prop where
  inv : s.Inv graph maxDegree
  forested : s.Forested graph
  source : ∀ u v, v ∈ getNeighborPages s.result u → edgePair u v ∈ done.map ScoredEdge.pair

theorem Grown.step (hg : Simple graph) {done : List ScoredEdge} {e : ScoredEdge}
    (h : Grown graph maxDegree done s) (hl : Lists graph (done ++ [e])) :
    Grown graph maxDegree (done ++ [e]) (s.treeEdge graph.keys.length maxDegree e) := by
  have he : e ∈ done ++ [e] := mem_append_right _ mem_cons_self
  have hu := hl.fst e he
  have hin := hl.snd e he
  have hv := hg.closed _ hu _ hin
  have huv : e.2.1 ≠ e.2.2 := fun heq => hg.loopless e.2.1 (by rw [heq] at hin ⊢; exact hin)
  have hnew : e.2.2 ∉ getNeighborPages s.result e.2.1 := by
    intro hm
    have hnd := hl.nodup
    rw [map_append, nodup_append] at hnd
    exact hnd.2.2 _ (h.source _ _ hm) _ mem_cons_self rfl
  have hmono : ∀ p, p ∈ done.map ScoredEdge.pair → p ∈ (done ++ [e]).map ScoredEdge.pair :=
    fun p hp => by rw [map_append]; exact mem_append_left _ hp
  have hself : ScoredEdge.pair e ∈ (done ++ [e]).map ScoredEdge.pair := mem_map_of_mem he
  obtain ⟨hforest, hsame | ⟨hroom, hsame⟩⟩ := h.forested.treeEdge maxDegree hu hv
  · refine ⟨h.inv.congr hsame, hforest, fun a b hb => ?_⟩
    rw [hsame.result] at hb
    exact hmono _ (h.source a b hb)
  · refine ⟨(h.inv.tryAddEdge huv hroom hu hv hnew hin).congr hsame, hforest, fun a b hb => ?_⟩
    rw [hsame.result, mem_neighbors_tryAddEdge huv hroom] at hb
    rcases hb with hb | ⟨rfl, rfl⟩ | ⟨rfl, rfl⟩
    · exact hmono _ (h.source a b hb)
    · exact hself
    · rw [edgePair_comm]
      exact hself

variable (maxDegree) in
theorem grown_treeEdges (hg : Simple graph) (done : List ScoredEdge) (hl : Lists graph done) :
    Grown graph maxDegree done
      (done.foldl (SparseState.treeEdge graph.keys.length maxDegree) (start graph)) := by
  induction done using reverseRecOn with
  | nil =>
    refine ⟨start_inv graph maxDegree, ranked_id graph.keys, fun u v hv => ?_⟩
    rw [foldl_nil, start_neighbors] at hv
    cases hv
  | append_singleton done e ih =>
    rw [foldl_concat]
    have hprefix : Lists graph done := by
      have hnd := hl.nodup
      rw [map_append, nodup_append] at hnd
      exact ⟨hnd.1, fun x hx => hl.fst x (mem_append_left _ hx),
        fun x hx => hl.snd x (mem_append_left _ hx)⟩
    exact (ih hprefix).step hg hl

/-- The edge is there, or an endpoint is full. -/
def Settled (maxDegree : Nat) (s : SparseState) (u v : PageNo) : Prop :=
  v ∈ getNeighborPages s.result u ∨ s.currentDegrees u = maxDegree ∨
    s.currentDegrees v = maxDegree

theorem Settled.symm (h : s.Settled maxDegree u v) (hi : s.Inv graph maxDegree) :
    s.Settled maxDegree v u := by
  rcases h with h | h | h
  · exact .inl (hi.symm u v h)
  · exact .inr (.inr h)
  · exact .inr (.inl h)

/-- An added edge settles itself and unsettles none. -/
theorem Settled.tryAddEdge {a b : PageNo} (h : s.Settled maxDegree a b) (huv : u ≠ v)
    (hroom : s.Room maxDegree u v) : (s.tryAddEdge maxDegree u v).Settled maxDegree a b := by
  obtain ⟨h1, h2⟩ := hroom
  have hroom : s.Room maxDegree u v := ⟨h1, h2⟩
  -- a full block is not an endpoint of the new edge
  have hfull : ∀ k, s.currentDegrees k = maxDegree →
      (s.tryAddEdge maxDegree u v).currentDegrees k = maxDegree := by
    intro k hk
    rw [degrees_tryAddEdge huv hroom, if_neg (fun he => by rw [he] at hk; omega),
      if_neg (fun he => by rw [he] at hk; omega)]
    exact hk
  rcases h with h | h | h
  · exact .inl ((mem_neighbors_tryAddEdge huv hroom a b).2 (.inl h))
  · exact .inr (.inl (hfull a h))
  · exact .inr (.inr (hfull b h))

/-- One edge of the second phase settles it. -/
theorem Inv.extraEdge (hg : Simple graph) (h : s.Inv graph maxDegree) {e : ScoredEdge}
    (hu : e.2.1 ∈ graph) (hin : e.2.2 ∈ getNeighborPages graph e.2.1) :
    (s.extraEdge maxDegree e).Inv graph maxDegree ∧
      (s.extraEdge maxDegree e).Settled maxDegree e.2.1 e.2.2 ∧
      ∀ a b, s.Settled maxDegree a b → (s.extraEdge maxDegree e).Settled maxDegree a b := by
  have hv := hg.closed _ hu _ hin
  have huv : e.2.1 ≠ e.2.2 := fun heq => hg.loopless e.2.1 (by rw [heq] at hin ⊢; exact hin)
  have hb1 := h.bound e.2.1
  have hb2 := h.bound e.2.2
  unfold SparseState.extraEdge
  split_ifs with hroom
  · obtain ⟨h1, h2, hnew⟩ := hroom
    have hr : s.Room maxDegree e.2.1 e.2.2 := ⟨h1, h2⟩
    exact ⟨h.tryAddEdge huv hr hu hv hnew hin,
      .inl ((mem_neighbors_tryAddEdge huv hr _ _).2 (.inr (.inl ⟨rfl, rfl⟩))),
      fun a b hs => hs.tryAddEdge huv hr⟩
  · refine ⟨h, ?_, fun a b hs => hs⟩
    by_cases hm : e.2.2 ∈ getNeighborPages s.result e.2.1
    · exact .inl hm
    · by_cases h1 : s.currentDegrees e.2.1 < maxDegree
      · by_cases h2 : s.currentDegrees e.2.2 < maxDegree
        · exact absurd ⟨h1, h2, hm⟩ hroom
        · exact .inr (.inr (by omega))
      · exact .inr (.inl (by omega))

theorem inv_extraEdges (hg : Simple graph) (edges : List ScoredEdge)
    (hl : ∀ e ∈ edges, e.2.1 ∈ graph ∧ e.2.2 ∈ getNeighborPages graph e.2.1)
    (h : s.Inv graph maxDegree) :
    (edges.foldl (SparseState.extraEdge maxDegree) s).Inv graph maxDegree ∧
      ∀ a b, (s.Settled maxDegree a b ∨ ∃ e ∈ edges, e.2.1 = a ∧ e.2.2 = b) →
        (edges.foldl (SparseState.extraEdge maxDegree) s).Settled maxDegree a b := by
  induction edges generalizing s with
  | nil =>
    refine ⟨h, fun a b hab => ?_⟩
    rcases hab with hab | ⟨e, he, -⟩
    · exact hab
    · cases he
  | cons e edges ih =>
    obtain ⟨hu, hin⟩ := hl e mem_cons_self
    obtain ⟨h1, hself, hkeep⟩ := h.extraEdge hg hu hin
    obtain ⟨h2, h3⟩ := ih (fun x hx => hl x (mem_cons_of_mem e hx)) h1
    refine ⟨h2, fun a b hab => h3 a b ?_⟩
    rcases hab with hab | ⟨x, hx, rfl, rfl⟩
    · exact .inl (hkeep a b hab)
    · rcases mem_cons.1 hx with rfl | hx
      · exact .inl hself
      · exact .inr ⟨x, hx, rfl, rfl⟩

end SparseState

/-! ## The sparse graph -/

open SparseState in
/-- The sparse graph has the blocks of the input, is symmetric and without repeated edges, has
input edges only, keeps the degree bound and is maximal. In every state between two edges of the
first phase, `find_root` ends at a root. -/
theorem graphSparsification_sound (ho : HashOrder) (es : EdgeSort) (graph : BlockAdjMap)
    (maxDegree : Nat) (hd : 0 < maxDegree) (hg : Simple graph) :
    (∀ k, k ∈ graphSparsification ho es graph maxDegree ↔ k ∈ graph) ∧
    (∀ u v, v ∈ getNeighborPages (graphSparsification ho es graph maxDegree) u →
      u ∈ getNeighborPages (graphSparsification ho es graph maxDegree) v) ∧
    (∀ u, (getNeighborPages (graphSparsification ho es graph maxDegree) u).Nodup) ∧
    (∀ u v, v ∈ getNeighborPages (graphSparsification ho es graph maxDegree) u →
      v ∈ getNeighborPages graph u ∨ u ∈ getNeighborPages graph v) ∧
    (∀ u, (getNeighborPages (graphSparsification ho es graph maxDegree) u).length ≤ maxDegree) ∧
    (∀ u ∈ graph, ∀ v ∈ getNeighborPages graph u,
      v ∈ getNeighborPages (graphSparsification ho es graph maxDegree) u ∨
      (getNeighborPages (graphSparsification ho es graph maxDegree) u).length = maxDegree ∨
      (getNeighborPages (graphSparsification ho es graph maxDegree) v).length = maxDegree) ∧
    ∀ done, done <+: es.sort (edgesWithScores ho graph) → ∀ x ∈ graph,
      let s := done.foldl (treeEdge graph.keys.length maxDegree) (start graph)
      s.parent (s.findRoot graph.keys.length x).1 = (s.findRoot graph.keys.length x).1 := by
  obtain ⟨hnodup, hedges, hall⟩ := edgesWithScores_spec ho graph
  have hperm := es.perm (edgesWithScores ho graph)
  have hl : Lists graph (es.sort (edgesWithScores ho graph)) :=
    ⟨(hperm.map ScoredEdge.pair).nodup_iff.2 hnodup, fun e he => (hedges e (hperm.mem_iff.1 he)).1,
      fun e he => (hedges e (hperm.mem_iff.1 he)).2⟩
  have hfind : ∀ done, done <+: es.sort (edgesWithScores ho graph) → ∀ x ∈ graph,
      let s := done.foldl (treeEdge graph.keys.length maxDegree) (start graph)
      s.parent (s.findRoot graph.keys.length x).1 = (s.findRoot graph.keys.length x).1 := by
    rintro done ⟨rest, he⟩ x hx
    have hdone : Lists graph done := by
      rw [← he] at hl
      have hnd := hl.nodup
      rw [map_append, nodup_append] at hnd
      exact ⟨hnd.1, fun e h => hl.fst e (mem_append_left _ h),
        fun e h => hl.snd e (mem_append_left _ h)⟩
    exact ((grown_treeEdges maxDegree hg done hdone).forested.findRoot hx).fixed
  by_cases hne : graph.keys = []
  · have hnone : ∀ k, k ∉ graph := fun k hk => by
      have hk' : k ∈ graph.keys := hk
      rw [hne] at hk'
      cases hk'
    have hempty : graphSparsification ho es graph maxDegree = ∅ := if_pos (.inr hne)
    have hlists : ∀ u, getNeighborPages (∅ : BlockAdjMap) u = [] := fun _ => rfl
    rw [hempty]
    simp only [hlists]
    exact ⟨fun k => iff_of_false (AList.notMem_empty k) (hnone k), by simp, by simp, by simp,
      by simp, fun u hu => absurd hu (hnone u), hfind⟩
  · have hgrown := grown_treeEdges maxDegree hg _ hl
    obtain ⟨hinv, hsettled⟩ := inv_extraEdges hg (es.sort (edgesWithScores ho graph))
      (fun e he => ⟨hl.fst e he, hl.snd e he⟩) hgrown.inv
    have heq : graphSparsification ho es graph maxDegree =
        ((es.sort (edgesWithScores ho graph)).foldl (extraEdge maxDegree)
          ((es.sort (edgesWithScores ho graph)).foldl (treeEdge graph.keys.length maxDegree)
            (start graph))).result := if_neg (by simp only [hne, or_false]; omega)
    rw [heq]
    set r := (es.sort (edgesWithScores ho graph)).foldl (extraEdge maxDegree)
      ((es.sort (edgesWithScores ho graph)).foldl (treeEdge graph.keys.length maxDegree)
        (start graph)) with hr
    refine ⟨hinv.keys, hinv.symm, hinv.nodup, hinv.edge,
      fun u => hinv.degree u ▸ hinv.bound u, fun u hu v hv => ?_, hfind⟩
    obtain ⟨e, he, hp⟩ := hall u hu v hv
    have hset : r.Settled maxDegree u v := by
      rcases edgePair_eq hp with ⟨h1, h2⟩ | ⟨h1, h2⟩
      · exact hsettled u v (.inr ⟨e, hperm.mem_iff.2 he, h1, h2⟩)
      · exact (hsettled v u (.inr ⟨e, hperm.mem_iff.2 he, h1, h2⟩)).symm hinv
    unfold SparseState.Settled at hset
    rw [hinv.degree, hinv.degree] at hset
    exact hset

/-- Three blocks next to each other. -/
def triangle : BlockAdjMap :=
  [(1, [2, 3]), (2, [3, 1]), (3, [1, 2])].foldl
    (fun (graph : BlockAdjMap) item => graph.insert item.1 item.2) ∅

theorem triangle_simple : SparseState.Simple triangle := by
  have hkeys : ∀ u ∈ triangle.keys, u ∉ getNeighborPages triangle u := by decide
  constructor
  · have h : ∀ u ∈ triangle.keys, ∀ v ∈ getNeighborPages triangle u, v ∈ triangle.keys := by decide
    exact h
  · intro u hm
    by_cases hu : u ∈ triangle.keys
    · exact hkeys u hu hm
    · rw [getNeighborPages, lookup_eq_none.2 hu] at hm
      cases hm

/-- With one neighbour per block, the edge between 1 and 2 is kept or one of the two is full. -/
theorem graphSparsification_sound_triangle :
    2 ∈ getNeighborPages (graphSparsification .listed .stable triangle 1) 1 ∨
      (getNeighborPages (graphSparsification .listed .stable triangle 1) 1).length = 1 ∨
      (getNeighborPages (graphSparsification .listed .stable triangle 1) 2).length = 1 :=
  (graphSparsification_sound .listed .stable triangle 1 (by decide)
    triangle_simple).2.2.2.2.2.1 1 (by decide) 2 (by decide)

end BwGraph
