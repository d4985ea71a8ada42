import BwGraph.Db.State

/-
  The read cache of the giant store (`giant_vertex_db_t`, `external.cc`). `read_neighbor` answers
  from `neighbor_cache` when it can; a read that goes to RocksDB fills the cache, and a write does
  not touch it. `GiantDb` is the RocksDB side: it keeps what `deserialize_neighbors` makes of the
  stored value, and all writes to it are taken to succeed.

  Both reads agree as long as the cache is coherent (`GiantVertexDb.agrees_iff`), and a step keeps
  the cache coherent exactly when it changes no list that is in the cache after it
  (`GiantVertexDb.coherent_step_iff`).
-/

namespace BwGraph

open List

/-- `giant_vertex_db_t` with its cache. -/
structure GiantVertexDb where
  db : GiantDb
  neighborCache : VId → Option (List VId)

/-- `WriteBatch`: the puts in order. -/
def GiantDb.write (g : GiantDb) (batch : List (VId × List VId)) : GiantDb :=
  batch.foldl (fun g e => g.insertVertex e.1 e.2) g

namespace GiantVertexDb

/-- The store opened with an empty cache. -/
def opened (g : GiantDb) : GiantVertexDb := ⟨g, fun _ => none⟩

/-- `neighbor_cache.insert_or_assign`. -/
def cache (s : GiantVertexDb) (v : VId) (neighbors : List VId) : GiantVertexDb :=
  { s with neighborCache := Function.update s.neighborCache v (some neighbors) }

/-- `insert_vertex`. -/
def insertVertex (s : GiantVertexDb) (v : VId) (neighbors : List VId) : GiantVertexDb :=
  { s with db := s.db.insertVertex v neighbors }

/-- `read_neighbor_clone`. -/
def readNeighborClone (s : GiantVertexDb) (v : VId) : List VId × GiantVertexDb :=
  match s.db.store v with
  | none => ([], s)
  | some neighbors => (neighbors, s.cache v neighbors)

/-- `read_neighbor`. -/
def readNeighbor (s : GiantVertexDb) (v : VId) : List VId × GiantVertexDb :=
  match s.neighborCache v with
  | some neighbors => (neighbors, s)
  | none => s.readNeighborClone v

/-- `add_neighbor`. -/
def addNeighbor (s : GiantVertexDb) (v n : VId) : GiantVertexDb :=
  let (neighbors, s) := s.readNeighborClone v
  if n ∈ neighbors then s else s.insertVertex v (neighbors ++ [n])

/-- `remove_neighbor`. -/
def removeNeighbor (s : GiantVertexDb) (v n : VId) : GiantVertexDb :=
  let (neighbors, s) := s.readNeighborClone v
  if n ∉ neighbors then s else s.insertVertex v (neighbors.erase n)

/-- One round of the loop of `batch_insert_vertices`: the store and the open batch. -/
def batchStep (size : Nat) (acc : GiantDb × List (VId × List VId))
    (x : (VId × List VId) × Nat) : GiantDb × List (VId × List VId) :=
  let batch := acc.2 ++ [x.1]
  if (x.2 + 1) % 1000 = 0 ∨ x.2 = size - 1 then (acc.1.write batch, []) else (acc.1, batch)

/-- `batch_insert_vertices`. -/
def batchInsertVertices (s : GiantVertexDb) (vertices : List (VId × List VId)) : GiantVertexDb :=
  { s with db := (vertices.zipIdx.foldl (batchStep vertices.length) (s.db, [])).1 }

/-- `get_vertex_degree`. -/
def getVertexDegree (s : GiantVertexDb) (v : VId) : Nat × GiantVertexDb :=
  let (neighbors, s) := s.readNeighbor v
  (neighbors.length, s)

end GiantVertexDb

/-- The operations of the store. -/
inductive GiantOp where
  | insertVertex (v : VId) (neighbors : List VId)
  | addNeighbor (v n : VId)
  | removeNeighbor (v n : VId)
  | batchInsertVertices (vertices : List (VId × List VId))
  | readNeighbor (v : VId)
  | readNeighborClone (v : VId)
  | getVertexDegree (v : VId)

namespace GiantVertexDb

/-- One operation. -/
def step (s : GiantVertexDb) : GiantOp → GiantVertexDb
  | .insertVertex v neighbors => s.insertVertex v neighbors
  | .addNeighbor v n => s.addNeighbor v n
  | .removeNeighbor v n => s.removeNeighbor v n
  | .batchInsertVertices vertices => s.batchInsertVertices vertices
  | .readNeighbor v => (s.readNeighbor v).2
  | .readNeighborClone v => (s.readNeighborClone v).2
  | .getVertexDegree v => (s.getVertexDegree v).2

/-- A run of operations. -/
def run (s : GiantVertexDb) (ops : List GiantOp) : GiantVertexDb := ops.foldl step s

/-- Both reads of every vertex agree, and the degree is the length of their list. -/
def Agrees (s : GiantVertexDb) : Prop :=
  ∀ v, (s.readNeighbor v).1 = (s.readNeighborClone v).1 ∧
    (s.getVertexDegree v).1 = (s.readNeighborClone v).1.length

end GiantVertexDb

/-- The operation changes no list that the cache holds afterwards. -/
def GiantOp.Keeps (s : GiantVertexDb) : GiantOp → Prop
  | .insertVertex v neighbors =>
    s.neighborCache v = none ∨ s.db.store v = some (neighbors.insertionSort (· ≤ ·))
  | .addNeighbor v n => s.db.store v = none ∨ n ∈ s.db.readNeighborClone v
  | .removeNeighbor v n => n ∉ s.db.readNeighborClone v
  | .batchInsertVertices vertices => ∀ v neighbors,
    (vertices.reverse.find? fun e => e.1 = v) = some (v, neighbors) →
      s.neighborCache v = none ∨ s.db.store v = some (neighbors.insertionSort (· ≤ ·))
  | _ => True

/-! ## The store -/

namespace GiantDb

theorem store_insertVertex (g : GiantDb) (v w : VId) (neighbors : List VId) :
    (g.insertVertex v neighbors).store w =
      if w = v then some (neighbors.insertionSort (· ≤ ·)) else g.store w := by
  exact Function.update_apply ..

theorem write_append (g : GiantDb) (batch batch' : List (VId × List VId)) :
    g.write (batch ++ batch') = (g.write batch).write batch' := foldl_append ..

/-- The last put of a vertex counts. -/
theorem store_write (g : GiantDb) (batch : List (VId × List VId)) (w : VId) :
    (g.write batch).store w =
      match batch.reverse.find? fun e => e.1 = w with
      | none => g.store w
      | some e => some (e.2.insertionSort (· ≤ ·)) := by
  induction batch using reverseRecOn with
  | nil => rfl
  | append_singleton batch e ih =>
    have hlast : g.write (batch ++ [e]) = (g.write batch).insertVertex e.1 e.2 := by
      rw [write_append]
      rfl
    rw [hlast, store_insertVertex, reverse_append]
    by_cases hw : w = e.1
    · simp [hw]
    · have hne : ¬ e.1 = w := fun h => hw h.symm
      simp only [hw, if_false, ih, reverse_singleton, singleton_append,
        find?_cons, hne, decide_false]

end GiantDb

namespace GiantVertexDb

/-- The batches of a bulk load add up to all of its pairs. -/
theorem foldl_batchStep (size : Nat) (vertices : List (VId × List VId)) (i : Nat) (g : GiantDb)
    (batch : List (VId × List VId)) (hsize : size = i + vertices.length) (hb : 0 < vertices.length) :
    (vertices.zipIdx i).foldl (batchStep size) (g, batch) = (g.write (batch ++ vertices), []) := by
  induction vertices generalizing i g batch with
  | nil => cases hb
  | cons e rest ih =>
    rw [zipIdx_cons, foldl_cons]
    cases rest with
    | nil =>
      have hlast : (i + 1) % 1000 = 0 ∨ i = size - 1 := by
        right
        rw [hsize, length_singleton]
        rfl
      rw [batchStep, if_pos hlast]
      rfl
    | cons e' rest =>
      have hsize' : size = (i + 1) + (e' :: rest).length := by
        rw [hsize, length_cons]
        omega
      have hpos : 0 < (e' :: rest).length := Nat.succ_pos _
      have hstep : batchStep size (g, batch) (e, i) =
          if (i + 1) % 1000 = 0 ∨ i = size - 1 then (g.write (batch ++ [e]), [])
          else (g, batch ++ [e]) := rfl
      rw [hstep]
      split
      · rw [ih (i + 1) _ [] hsize' hpos, nil_append]
        have happ : batch ++ e :: e' :: rest = (batch ++ [e]) ++ e' :: rest := by simp
        rw [happ, GiantDb.write_append g (batch ++ [e])]
      · rw [ih (i + 1) _ (batch ++ [e]) hsize' hpos, append_assoc, singleton_append]

theorem batchInsertVertices_db (s : GiantVertexDb) (vertices : List (VId × List VId)) :
    (s.batchInsertVertices vertices).db = s.db.write vertices := by
  unfold batchInsertVertices
  by_cases hv : vertices = []
  · subst hv
    rfl
  · have h := foldl_batchStep vertices.length vertices 0 s.db [] (Nat.zero_add _).symm
      (length_pos_iff.2 hv)
    show (vertices.zipIdx.foldl (batchStep vertices.length) (s.db, [])).1 = _
    rw [h, nil_append]

/-! ## Coherence -/

/-- The cache holds what the store holds. -/
def Coherent (s : GiantVertexDb) : Prop :=
  ∀ v neighbors, s.neighborCache v = some neighbors → s.db.store v = some neighbors

/-- Only vertices of the store are in the cache: nothing is ever deleted from the store. -/
def Backed (s : GiantVertexDb) : Prop := ∀ v, s.db.store v = none → s.neighborCache v = none

variable {s : GiantVertexDb}

theorem Coherent.backed (h : s.Coherent) : s.Backed := by
  intro v hv
  cases hc : s.neighborCache v with
  | none => rfl
  | some neighbors =>
    rw [h v neighbors hc] at hv
    cases hv

theorem readNeighborClone_fst (s : GiantVertexDb) (v : VId) :
    (s.readNeighborClone v).1 = s.db.readNeighborClone v := by
  unfold readNeighborClone GiantDb.readNeighborClone
  cases s.db.store v with
  | none => rfl
  | some neighbors => rfl

theorem readNeighborClone_db (s : GiantVertexDb) (v : VId) :
    (s.readNeighborClone v).2.db = s.db := by
  unfold readNeighborClone
  cases s.db.store v with
  | none => rfl
  | some neighbors => rfl

/-- In a backed cache both reads agree exactly when it is coherent. -/
theorem agrees_iff (hb : s.Backed) : s.Agrees ↔ s.Coherent := by
  constructor
  · intro h v neighbors hc
    have hread := (h v).1
    rw [readNeighborClone_fst, readNeighbor, hc] at hread
    cases hs : s.db.store v with
    | none =>
      rw [hb v hs] at hc
      cases hc
    | some stored =>
      rw [GiantDb.readNeighborClone, hs] at hread
      exact congrArg some hread.symm
  · intro h v
    have hread : (s.readNeighbor v).1 = (s.readNeighborClone v).1 := by
      unfold readNeighbor
      cases hc : s.neighborCache v with
      | none => rfl
      | some neighbors =>
        rw [readNeighborClone_fst, GiantDb.readNeighborClone, h v neighbors hc]
        rfl
    refine ⟨hread, ?_⟩
    rw [← hread]
    rfl

theorem cache_neighborCache (s : GiantVertexDb) (v w : VId) (neighbors : List VId) :
    (s.cache v neighbors).neighborCache w =
      if w = v then some neighbors else s.neighborCache w := Function.update_apply ..

section

variable (h : s.Coherent)
include h

theorem coherent_cache {v : VId} {neighbors : List VId} (hs : s.db.store v = some neighbors) :
    (s.cache v neighbors).Coherent := by
  intro w l hl
  rw [cache_neighborCache] at hl
  split at hl
  · rename_i hw
    subst hw
    cases hl
    exact hs
  · exact h w l hl

theorem coherent_readNeighborClone (v : VId) : (s.readNeighborClone v).2.Coherent := by
  unfold readNeighborClone
  cases hs : s.db.store v with
  | none => exact h
  | some neighbors => exact coherent_cache h hs

theorem coherent_readNeighbor (v : VId) : (s.readNeighbor v).2.Coherent := by
  unfold readNeighbor
  cases s.neighborCache v with
  | some neighbors => exact h
  | none => exact coherent_readNeighborClone h v

/-- A put keeps the cache coherent exactly when it stores what is cached. -/
theorem coherent_insertVertex_iff (v : VId) (neighbors : List VId) :
    (s.insertVertex v neighbors).Coherent ↔
      s.neighborCache v = none ∨ s.db.store v = some (neighbors.insertionSort (· ≤ ·)) := by
  constructor
  · intro hi
    cases hc : s.neighborCache v with
    | none => exact .inl rfl
    | some cached =>
      have hnew := hi v cached hc
      rw [insertVertex, GiantDb.store_insertVertex, if_pos rfl] at hnew
      rw [h v cached hc]
      exact .inr hnew.symm
  · intro hk w l hl
    rw [insertVertex, GiantDb.store_insertVertex]
    split
    · rename_i hw
      subst hw
      rcases hk with hk | hk
      · rw [insertVertex, hk] at hl
        cases hl
      · rw [← hk]
        exact h w l hl
    · exact h w l hl

/-- The lists that a read puts in the cache and a write then makes longer or shorter. -/
theorem coherent_rewrite_iff {v : VId} {neighbors neighbors' : List VId}
    (hs : s.db.store v = some neighbors) (hlen : neighbors'.length ≠ neighbors.length) :
    ¬ ((s.cache v neighbors).insertVertex v neighbors').Coherent := by
  intro hi
  rcases (coherent_insertVertex_iff (coherent_cache h hs) v neighbors').1 hi with hn | hn
  · rw [cache_neighborCache, if_pos rfl] at hn
    cases hn
  · have heq : neighbors = neighbors'.insertionSort (· ≤ ·) := Option.some.inj (hs.symm.trans hn)
    refine hlen ?_
    rw [heq, length_insertionSort]

/-- One step keeps the cache coherent exactly when it changes no list that is in it afterwards. -/
theorem coherent_step_iff (op : GiantOp) : (s.step op).Coherent ↔ op.Keeps s := by
  cases op with
  | insertVertex v neighbors => exact coherent_insertVertex_iff h v neighbors
  | addNeighbor v n =>
    show (s.addNeighbor v n).Coherent ↔ s.db.store v = none ∨ n ∈ s.db.readNeighborClone v
    unfold addNeighbor readNeighborClone GiantDb.readNeighborClone
    cases hs : s.db.store v with
    | none =>
      -- nothing is cached for a vertex that is not in the store
      have hc : s.neighborCache v = none := h.backed v hs
      exact iff_of_true ((coherent_insertVertex_iff h v _).2 (.inl hc)) (.inl rfl)
    | some neighbors =>
      dsimp only
      split
      · rename_i hn
        exact iff_of_true (coherent_cache h hs) (.inr hn)
      · rename_i hn
        refine iff_of_false (coherent_rewrite_iff h hs (by simp)) ?_
        rintro (hc | hc)
        · cases hc
        · exact hn hc
  | removeNeighbor v n =>
    show (s.removeNeighbor v n).Coherent ↔ n ∉ s.db.readNeighborClone v
    unfold removeNeighbor readNeighborClone GiantDb.readNeighborClone
    cases hs : s.db.store v with
    | none => exact iff_of_true (by simpa using h) (by simp)
    | some neighbors =>
      dsimp only
      split
      · rename_i hn
        exact iff_of_true (coherent_cache h hs) hn
      · rename_i hn
        rw [not_not] at hn
        refine iff_of_false (coherent_rewrite_iff h hs ?_) (fun hc => hc hn)
        have hlen := length_erase_of_mem hn
        have hpos := length_pos_of_mem hn
        omega
  | batchInsertVertices vertices =>
    have hdb : (s.step (.batchInsertVertices vertices)).db = s.db.write vertices :=
      s.batchInsertVertices_db vertices
    constructor
    · intro hi v neighbors hlast
      cases hc : s.neighborCache v with
      | none => exact .inl rfl
      | some cached =>
        have hnew := hi v cached hc
        rw [hdb, GiantDb.store_write, hlast] at hnew
        rw [h v cached hc]
        exact .inr hnew.symm
    · intro hk v cached hc
      rw [hdb, GiantDb.store_write]
      cases hlast : vertices.reverse.find? fun e => e.1 = v with
      | none => exact h v cached hc
      | some e =>
        have hv : e.1 = v := by simpa using find?_some hlast
        rcases hk v e.2 (by rw [hlast, ← hv]) with hn | hn
        · rw [show s.neighborCache v = some cached from hc] at hn
          cases hn
        · rw [← h v cached hc]
          exact hn.symm
  | readNeighbor v => exact iff_of_true (coherent_readNeighbor h v) trivial
  | readNeighborClone v => exact iff_of_true (coherent_readNeighborClone h v) trivial
  | getVertexDegree v => exact iff_of_true (coherent_readNeighbor h v) trivial

end

/-! ## Runs -/

theorem coherent_opened (g : GiantDb) : (opened g).Coherent := fun _ _ h => by cases h

theorem run_concat (s : GiantVertexDb) (ops : List GiantOp) (op : GiantOp) :
    s.run (ops ++ [op]) = (s.run ops).step op := by
  rw [run, foldl_append]
  rfl

/-- A run keeps the cache coherent throughout exactly when every step does. -/
theorem coherent_run_iff (g : GiantDb) (ops : List GiantOp) :
    (∀ pre, pre <+: ops → ((opened g).run pre).Coherent) ↔
      ∀ pre op, pre ++ [op] <+: ops → op.Keeps ((opened g).run pre) := by
  constructor
  · intro h pre op hpre
    have hbefore := h pre ((prefix_append pre [op]).trans hpre)
    have hafter := h (pre ++ [op]) hpre
    rw [run_concat] at hafter
    exact (coherent_step_iff hbefore op).1 hafter
  · intro h pre
    induction pre using reverseRecOn with
    | nil => exact fun _ => coherent_opened g
    | append_singleton pre op ih =>
      intro hpre
      rw [run_concat]
      have hbefore := ih ((prefix_append pre [op]).trans hpre)
      exact (coherent_step_iff hbefore op).2 (h pre op hpre)

theorem backed_insertVertex (h : s.Backed) (v : VId) (neighbors : List VId) :
    (s.insertVertex v neighbors).Backed := by
  intro w hw
  rw [insertVertex, GiantDb.store_insertVertex] at hw
  split at hw
  · cases hw
  · exact h w hw

theorem backed_readNeighborClone (h : s.Backed) (v : VId) : (s.readNeighborClone v).2.Backed := by
  unfold readNeighborClone
  cases hs : s.db.store v with
  | none => exact h
  | some neighbors =>
    intro w hw
    have hne : w ≠ v := by
      rintro rfl
      rw [show s.db.store w = none from hw] at hs
      cases hs
    exact (Function.update_of_ne hne ..).trans (h w hw)

theorem backed_readNeighbor (h : s.Backed) (v : VId) : (s.readNeighbor v).2.Backed := by
  unfold readNeighbor
  cases s.neighborCache v with
  | some neighbors => exact h
  | none => exact backed_readNeighborClone h v

theorem backed_step (h : s.Backed) (op : GiantOp) : (s.step op).Backed := by
  cases op with
  | insertVertex v neighbors => exact backed_insertVertex h v neighbors
  | addNeighbor v n =>
    have hread := backed_readNeighborClone h v
    show (s.addNeighbor v n).Backed
    unfold addNeighbor
    dsimp only
    split
    · exact hread
    · exact backed_insertVertex hread v _
  | removeNeighbor v n =>
    have hread := backed_readNeighborClone h v
    show (s.removeNeighbor v n).Backed
    unfold removeNeighbor
    dsimp only
    split
    · exact hread
    · exact backed_insertVertex hread v _
  | batchInsertVertices vertices =>
    intro w hw
    have hdb : (s.step (.batchInsertVertices vertices)).db = s.db.write vertices :=
      s.batchInsertVertices_db vertices
    rw [hdb, GiantDb.store_write] at hw
    split at hw
    · exact h w hw
    · cases hw
  | readNeighbor v => exact backed_readNeighbor h v
  | readNeighborClone v => exact backed_readNeighborClone h v
  | getVertexDegree v => exact backed_readNeighbor h v

theorem backed_run (g : GiantDb) (ops : List GiantOp) : ((opened g).run ops).Backed := by
  induction ops using reverseRecOn with
  | nil => exact fun _ _ => rfl
  | append_singleton ops op ih =>
    rw [run_concat]
    exact backed_step ih op

/-- Both reads agree after every step of a run exactly when no step changes a list that is in the
cache afterwards. -/
theorem agrees_run_iff (g : GiantDb) (ops : List GiantOp) :
    (∀ pre, pre <+: ops → ((opened g).run pre).Agrees) ↔
      ∀ pre op, pre ++ [op] <+: ops → op.Keeps ((opened g).run pre) := by
  rw [← coherent_run_iff]
  constructor
  · exact fun h pre hpre => (agrees_iff (backed_run g pre)).1 (h pre hpre)
  · exact fun h pre hpre => (agrees_iff (backed_run g pre)).2 (h pre hpre)

/-- The list of vertex 0 is read and then replaced: `read_neighbor` still gives the old one. -/
theorem agrees_run_stale :
    ¬ ∀ (g : GiantDb) (ops : List GiantOp), ((opened g).run ops).Agrees := by
  intro h
  have hread := (h ⟨fun _ => none⟩
    [.insertVertex 0 [1], .readNeighbor 0, .insertVertex 0 [2]] 0).1
  revert hread
  decide

end GiantVertexDb

end BwGraph
