import BwGraph.Db.Vertices
import BwGraph.Io.Index
import BwGraph.Io.PageData

/-
  `insert_vertex_batch` (`db_dyn.cc`). The call resizes the vertex index, gives the giant vertices
  of the batch to the giant store and packs the others into pages that it writes to the file
  itself, past the buffer pool and in an encoding of its own: a metadata block of six `uint64_t`,
  vertices of 24 bytes, neighbours of eight bytes or, compressed, four.

  `parse_from_page_data` reads a header of 16 bytes instead. The high half of the vertex count lies
  where it looks for the used bytes, so that it finds fewer than the fixed part of a page needs:
  no page of a batch is accepted (`parse_pageBytes`). Hence a call does what it is meant to do
  exactly when it writes no page (`insertVertexBatch_iff`).
-/

namespace BwGraph

open EStateM (bind_eq_ok pure_eq_ok)
open List

/-! ## The call -/

/-- `items.resize(n)` and `delta_heads_.resize(n)`. -/
def VertexIndex.resize (vi : VertexIndex) (n : Nat) : VertexIndex where
  size := n
  items v := if vi.size ≤ v ∧ v < n then
      ⟨⟨vi.nextVersion + (v - vi.size), 0, 0⟩, .normal, false⟩
    else vi.items v
  deltaHeads v := if vi.size ≤ v ∧ v < n then none else vi.deltaHeads v
  nextVersion := vi.nextVersion + (n - vi.size)

/-- A database with the bytes of the pages that were written to the file past the buffer pool;
`writes` are these calls of `write_page`, newest first. -/
structure RawDb where
  db : Db
  raw : PageNo → Option (List Nat)
  writes : List (PageNo × List Nat)

/-- Computations on the database. An access outside of its object is undefined in the source; here
it ends the call without a result. -/
abbrev RawM := EStateM String RawDb

/-- A call on the database alone. -/
def RawM.onDb {α : Type} (x : DbM α) : RawM α := fun s =>
  match x s.db with
  | .ok a db => .ok a { s with db := db }
  | .error e db => .error e { s with db := db }

/-- `METADATA_SIZE + NEIGHBOR_BLOCK_SIZE`. -/
def batchFixedBytes (cfg : Config) : Nat := 48 + cfg.maxBlockNeighbor * 4

/-- `CSR_VERTEX_SIZE`. -/
def batchVertexBytes : Nat := 24

/-- One element of `current_page_vertex_ids`, `current_page_degrees` and
`current_page_neighbor_data`. -/
structure BatchEntry where
  vertexId : VId
  degree : Nat
  neighborData : List Nat

/-- `current_page_used_bytes`, `current_page_no` and the entries of the page that is filled. -/
structure BatchPage where
  entries : List BatchEntry
  usedBytes : Nat
  pageNo : Option PageNo

/-- The page that a flush begins. -/
def BatchPage.fresh (cfg : Config) : BatchPage := ⟨[], batchFixedBytes cfg, none⟩

/-- The vertex array; `off` is `neighbor_data_offset`. -/
def batchVertexArray : List BatchEntry → Nat → List Nat
  | [], _ => []
  | e :: entries, off =>
    longWrite e.vertexId ++ longWrite e.degree ++ longWrite off ++
      batchVertexArray entries (off + e.neighborData.length)

/-- What `flush_page` copies into the page buffer. -/
def BatchPage.copied (cfg : Config) (page : BatchPage) : List Nat :=
  longWrite page.entries.length ++ (longWrite (page.entries.map BatchEntry.degree).sum ++
    longWrite 0 ++ longWrite page.usedBytes ++ longWrite 0 ++ longWrite 0 ++
    List.replicate (cfg.maxBlockNeighbor * 4) 0 ++ batchVertexArray page.entries 0 ++
    page.entries.flatMap BatchEntry.neighborData)

/-- The page buffer, cleared before the copy. -/
def BatchPage.bytes (cfg : Config) (page : BatchPage) : List Nat :=
  page.copied cfg ++ List.replicate (cfg.pageSize - (page.copied cfg).length) 0

/-- `neighbor_bytes`. -/
def batchNeighborBytes (cfg : Config) (neighbors : List VId) : List Nat :=
  if cfg.neighborCompress then neighbors.flatMap wordWrite else neighbors.flatMap longWrite

/-- `current_page_no`, allocated when there is none yet. -/
def ensurePage (page : BatchPage) : RawM PageNo := fun s =>
  match page.pageNo with
  | some p => .ok p s
  | none =>
    let (p, pool) := s.db.csrPool.allocatePage
    .ok p { s with db := { s.db with csrPool := pool } }

/-- `write_page` on the file of the pool. -/
def RawDb.writePage (s : RawDb) (p : PageNo) (data : List Nat) : RawDb where
  db := { s.db with csrPool :=
    { s.db.csrPool with diskManager := s.db.csrPool.diskManager.noteWrite p } }
  raw := Function.update s.raw p (some data)
  writes := (p, data) :: s.writes

/-- The part of `flush_page` that fills the page buffer and writes it. -/
def copyPage (cfg : Config) (p : PageNo) (page : BatchPage) : RawM Unit := fun s =>
  if (page.copied cfg).length > cfg.pageSize then .error "copy past the page buffer" s
  else .ok () (s.writePage p (page.bytes cfg))

/-- `flush_page`. -/
def flushPage (cfg : Config) (page : BatchPage) : RawM BatchPage := do
  if page.entries.isEmpty then return page
  else
    let p ← ensurePage page
    copyPage cfg p page
    return BatchPage.fresh cfg

/-- `items[v].vertex_type = type`. -/
def setType (v : VId) (type : VertexType) : RawM Unit := do
  if v ≥ (← get).db.vertexIndex.size then throw "access past the vertex index"
  else modify fun s =>
    { s with db := { s.db with vertexIndex := s.db.vertexIndex.setVertexType v type } }

/-- The page for the next vertex: a full one is flushed. -/
def pageWithRoom (cfg : Config) (page : BatchPage) (spaceNeeded : Nat) : RawM BatchPage :=
  if page.usedBytes + spaceNeeded > cfg.pageSize then flushPage cfg page else pure page

/-- The body of the loop over the normal vertices. -/
def packNormalVertex (cfg : Config) (page : BatchPage) (v : VId) (neighbors : List VId) :
    RawM BatchPage := do
  let data := batchNeighborBytes cfg neighbors
  let spaceNeeded := batchVertexBytes + data.length
  let page ← pageWithRoom cfg page spaceNeeded
  let p ← ensurePage page
  let offset := page.entries.length
  setType v .normal
  RawM.onDb (updateVertexLoc v p (offset % 2 ^ 16))
  return ⟨page.entries ++ [⟨v, neighbors.length, data⟩], page.usedBytes + spaceNeeded, some p⟩

/-- The loop over the normal vertices. -/
def packNormal (cfg : Config) (page : BatchPage) : List (VId × List VId) → RawM BatchPage
  | [] => pure page
  | (v, neighbors) :: items => do
    let page ← packNormalVertex cfg page v neighbors
    packNormal cfg page items

/-- `giant_db->insert_vertex(v, neighbors)` and the type of `v`. -/
def storeGiant (v : VId) (neighbors : List VId) : RawM Unit := do
  modify fun s => { s with db := { s.db with giantDb := s.db.giantDb.insertVertex v neighbors } }
  setType v .giant

/-- The loop that gives the giant vertices to their store; the others are `normal_vertices`. -/
def separateGiants (cfg : Config) : List (VId × List VId) → RawM (List (VId × List VId))
  | [] => pure []
  | (v, neighbors) :: items => do
    if neighbors.length ≥ cfg.giantDegreeBound then
      storeGiant v neighbors
      separateGiants cfg items
    else
      let normal ← separateGiants cfg items
      return (v, neighbors) :: normal

/-- `max_new_vertex_id`. -/
def maxNewVertexId (batch : List (VId × List VId)) : VId := batch.foldl (fun m it => max m it.1) 0

/-- `insert_vertex_batch`, with the batch in the order in which its map is iterated. The new size
is the sum of a `v_id_t` and one. -/
def insertVertexBatch (cfg : Config) (batch : List (VId × List VId)) : RawM Bool := do
  if batch.isEmpty then return true
  else
    let vi := (← get).db.vertexIndex
    if batch.any (fun it => it.1 < vi.size) then return false
    else
      let newSize := (maxNewVertexId batch + 1) % 2 ^ 32
      modify fun s => { s with db := { s.db with vertexIndex := s.db.vertexIndex.resize newSize } }
      let normal ← separateGiants cfg batch
      if normal.isEmpty then return true
      else
        let page ← packNormal cfg (BatchPage.fresh cfg) normal
        let _ ← flushPage cfg page
        return true

/-! ## Reads -/

namespace RawDb

variable (cfg : Config) (s : RawDb)

/-- The page `buf_page_read` gives: a resident one, or what is parsed from the file. -/
def page (p : PageNo) : Except String CsrPage :=
  match s.db.csrPool.frames p, s.raw p with
  | some f, _ => .ok f.page
  | none, none => .ok (s.db.csrPool.readPage p)
  | none, some data => (parseFromPageData cfg data).map Prod.fst

/-- The base list of a vertex, or what its page throws. -/
def base (v : VId) : Except String (List VId) :=
  if (s.db.vertexIndex.items v).vertexType = .giant then .ok (s.db.giantDb.readNeighborClone v)
  else (s.page cfg (s.db.location v).1).map fun page => page.readNeighbors cfg (s.db.location v).2

/-- `read_neighbor_clone`. -/
def readNeighborClone (fuel : Nat) (v : VId) : Except String (Option (List VId)) :=
  (s.base cfg v).map fun base =>
    (scanChain s.db.pageMap fuel (s.db.vertexIndex.deltaHeads v) ⟨[], [], []⟩).map fun scan =>
      scan.result base

/-- The call ends with `r` from some fuel on. -/
def Returns (v : VId) (r : List VId) : Prop :=
  ∃ n, ∀ fuel, n ≤ fuel → s.readNeighborClone cfg fuel v = .ok (some r)

end RawDb

variable {cfg : Config} {s s' : RawDb} {v : VId} {batch : List (VId × List VId)}

namespace RawDb

/-- A giant vertex without delta records reads as its list in the store. -/
theorem returns_of_giant (htype : (s.db.vertexIndex.items v).vertexType = .giant)
    (hhead : s.db.vertexIndex.deltaHeads v = none) :
    s.Returns cfg v (s.db.giantDb.readNeighborClone v) := by
  refine ⟨0, fun fuel _ => ?_⟩
  have hbase : s.base cfg v = .ok (s.db.giantDb.readNeighborClone v) := if_pos htype
  have hscan : scanChain s.db.pageMap fuel none ⟨[], [], []⟩ = some ⟨[], [], []⟩ := by
    cases fuel <;> rfl
  have hresult (l : List VId) : (⟨[], [], []⟩ : DeltaScan).result l = l := by
    simp [DeltaScan.result]
  rw [readNeighborClone, hbase, hhead, hscan]
  exact congrArg (fun r => Except.ok (some r)) (hresult _)

/-- A read looks at the item, the chain and the stored list of its vertex, and at the pages. -/
theorem readNeighborClone_congr (hitem : s'.db.vertexIndex.items v = s.db.vertexIndex.items v)
    (hhead : s'.db.vertexIndex.deltaHeads v = s.db.vertexIndex.deltaHeads v)
    (hstore : s'.db.giantDb.store v = s.db.giantDb.store v) (hmap : s'.db.pageMap = s.db.pageMap)
    (hpool : s'.db.csrPool = s.db.csrPool) (hraw : s'.raw = s.raw) (fuel : Nat) :
    s'.readNeighborClone cfg fuel v = s.readNeighborClone cfg fuel v := by
  have hpage : s'.page cfg = s.page cfg := by
    funext p
    rw [page, page, hpool, hraw]
  have hbase : s'.base cfg v = s.base cfg v := by
    simp only [base, Db.location, GiantDb.readNeighborClone, hitem, hpage, hstore]
  rw [readNeighborClone, readNeighborClone, hbase, hhead, hmap]

end RawDb

/-! ## The pages of a batch are not accepted -/

theorem halfRead_longWrite (n : Nat) (rest : List Nat) :
    halfRead (longWrite n ++ rest) = n % 65536 ∧
      halfRead ((longWrite n ++ rest).drop 2) = n / 65536 % 65536 := by
  unfold halfRead longWrite wordWrite
  simp only [cons_append, nil_append, drop_succ_cons, drop_zero,
    getD_cons_zero, getD_cons_succ]
  rw [Nat.or_comm, join2 _ (byte_lt _), byte_shiftRight, Nat.or_comm, join2 _ (byte_lt _),
    byte_shiftRight, byte_shiftRight, byte]
  omega

/-- The used bytes that the parser finds are the high half of the vertex count. -/
theorem wordRead_longWrite {n : Nat} (hn : n < 2 ^ 32) (rest : List Nat) :
    wordRead ((longWrite n ++ rest).drop 4) = 0 := by
  have hhigh : n >>> 32 = 0 := by
    rw [Nat.shiftRight_eq_div_pow]
    exact Nat.div_eq_of_lt hn
  have hdrop : (longWrite n ++ rest).drop 4 = wordWrite (n >>> 32) ++ rest := rfl
  rw [hdrop, hhigh]
  exact wordRead_wordWrite (by decide) rest

/-- A page with entries, fewer than 2^32 of them, is refused. -/
theorem parse_pageBytes {page : BatchPage} (hne : page.entries ≠ [])
    (hlt : page.entries.length < 2 ^ 32) :
    ¬ ∃ parsed, parseFromPageData cfg (page.bytes cfg) = .ok parsed := by
  rintro ⟨parsed, hparse⟩
  obtain ⟨rest, hbytes⟩ : ∃ rest, page.bytes cfg = longWrite page.entries.length ++ rest :=
    ⟨_, by rw [BatchPage.bytes, BatchPage.copied, append_assoc]⟩
  have hpos : 0 < page.entries.length := length_pos_iff.2 hne
  have hlt' : page.entries.length < 4294967296 := hlt
  obtain ⟨hcount, hedges⟩ := halfRead_longWrite page.entries.length rest
  have hused := wordRead_longWrite hlt rest
  rw [hbytes] at hparse
  unfold parseFromPageData at hparse
  dsimp only at hparse
  rw [hcount, hedges, hused] at hparse
  have hheader : 0 < cfg.headerBytes := Nat.lt_of_lt_of_le (by decide) (Nat.le_add_right 16 _)
  split_ifs at hparse with hempty _ _ hmin
  · omega
  · omega

/-! ## The calls, one by one -/

theorem ensurePage_ok {page : BatchPage} {p : PageNo} (h : ensurePage page s = .ok p s') :
    s'.writes = s.writes ∧ s'.db.vertexIndex = s.db.vertexIndex := by
  unfold ensurePage at h
  split at h <;> cases h <;> exact ⟨rfl, rfl⟩

variable {page page' : BatchPage}

/-- A flush writes the page, if it has entries, and begins the next one. -/
theorem flushPage_ok (h : flushPage cfg page s = .ok page' s') :
    (page.entries = [] ∧ page' = page ∧ s' = s) ∨
      (page.entries ≠ [] ∧ page' = BatchPage.fresh cfg ∧
        s'.db.vertexIndex = s.db.vertexIndex ∧
        ∃ p, s'.writes = (p, page.bytes cfg) :: s.writes) := by
  unfold flushPage at h
  split_ifs at h with hempty
  · obtain ⟨rfl, rfl⟩ := pure_eq_ok.1 h
    exact .inl ⟨isEmpty_iff.1 hempty, rfl, rfl⟩
  · obtain ⟨p, s1, hown, h⟩ := bind_eq_ok.1 h
    obtain ⟨hwrites, hindex⟩ := ensurePage_ok hown
    obtain ⟨⟨⟩, s2, hwrite, h⟩ := bind_eq_ok.1 h
    obtain ⟨rfl, rfl⟩ := pure_eq_ok.1 h
    unfold copyPage at hwrite
    split_ifs at hwrite
    cases hwrite
    exact .inr ⟨fun he => hempty (isEmpty_iff.2 he), rfl, hindex, p, by rw [← hwrites]; rfl⟩

theorem setType_ok {type : VertexType} (h : setType v type s = .ok () s') :
    v < s.db.vertexIndex.size ∧
      s' = { s with db := { s.db with vertexIndex := s.db.vertexIndex.setVertexType v type } } := by
  unfold setType at h
  rw [EStateM.get_bind] at h
  split_ifs at h with hv
  · cases h
  · cases h
    exact ⟨Nat.lt_of_not_le hv, rfl⟩

theorem RawM.onDb_updateVertexLoc {q : PageNo} {offset : Nat}
    (h : RawM.onDb (updateVertexLoc v q offset) s = .ok () s') :
    s'.writes = s.writes ∧ s'.db.vertexIndex.size = s.db.vertexIndex.size := by
  unfold RawM.onDb updateVertexLoc at h
  dsimp only at h
  split at h
  · rename_i hupd
    split at hupd
    · cases hupd
    · rename_i hpub
      cases hupd
      cases h
      unfold VertexIndex.publishPreparedVersion at hpub
      split_ifs at hpub
      cases hpub
      exact ⟨rfl, rfl⟩
  · cases h

/-- What packing `n` vertices with these ids does to the index, the writes and the page. -/
structure BatchPacked (ids : List VId) (page page' : BatchPage) (s s' : RawDb) : Prop where
  inRange : ∀ v ∈ ids, v < s.db.vertexIndex.size
  size : s'.db.vertexIndex.size = s.db.vertexIndex.size
  writes : s.writes <:+ s'.writes
  entries : page'.entries.length ≤ page.entries.length + ids.length
  filled : page.entries ≠ [] ∨ ids ≠ [] → page'.entries ≠ []

theorem packNormalVertex_ok {neighbors : List VId}
    (h : packNormalVertex cfg page v neighbors s = .ok page' s') :
    BatchPacked [v] page page' s s' := by
  unfold packNormalVertex at h
  obtain ⟨page1, s1, hflush, h⟩ := bind_eq_ok.1 h
  obtain ⟨p, s2, hown, h⟩ := bind_eq_ok.1 h
  obtain ⟨⟨⟩, s3, htype, h⟩ := bind_eq_ok.1 h
  obtain ⟨⟨⟩, s4, hloc, h⟩ := bind_eq_ok.1 h
  obtain ⟨rfl, rfl⟩ := pure_eq_ok.1 h
  have h1 : s1.db.vertexIndex = s.db.vertexIndex ∧ s.writes <:+ s1.writes ∧
      page1.entries.length ≤ page.entries.length := by
    unfold pageWithRoom at hflush
    split_ifs at hflush
    · rcases flushPage_ok hflush with ⟨-, rfl, rfl⟩ | ⟨-, rfl, hindex, p, hw⟩
      · exact ⟨rfl, suffix_rfl, Nat.le_refl _⟩
      · exact ⟨hindex, hw ▸ suffix_cons _ _, Nat.zero_le _⟩
    · obtain ⟨rfl, rfl⟩ := pure_eq_ok.1 hflush
      exact ⟨rfl, suffix_rfl, Nat.le_refl _⟩
  obtain ⟨hindex, hsuffix, hlen⟩ := h1
  obtain ⟨hw2, hindex2⟩ := ensurePage_ok hown
  obtain ⟨hv, rfl⟩ := setType_ok htype
  obtain ⟨hw4, hsize⟩ := RawM.onDb_updateVertexLoc hloc
  have hsize2 : s2.db.vertexIndex.size = s.db.vertexIndex.size := by rw [hindex2, hindex]
  refine ⟨?_, hsize.trans hsize2, ?_, ?_, ?_⟩
  · intro w hw
    rw [mem_singleton.1 hw, ← hsize2]
    exact hv
  · rw [hw4]
    show s.writes <:+ s2.writes
    rw [hw2]
    exact hsuffix
  · rw [length_append, length_singleton, length_singleton]
    omega
  · exact fun _ => append_ne_nil_of_right_ne_nil _ (cons_ne_nil _ _)

theorem packNormal_ok {items : List (VId × List VId)}
    (h : packNormal cfg page items s = .ok page' s') :
    BatchPacked (items.map Prod.fst) page page' s s' := by
  induction items generalizing page s with
  | nil =>
    obtain ⟨rfl, rfl⟩ := pure_eq_ok.1 h
    exact ⟨fun v hv => absurd hv not_mem_nil, rfl, suffix_rfl, Nat.le_refl _,
      fun hne => hne.resolve_right fun hnil => hnil rfl⟩
  | cons it items ih =>
    obtain ⟨page1, s1, hit, h⟩ := bind_eq_ok.1 h
    have h1 := packNormalVertex_ok hit
    have h2 := ih h
    refine ⟨?_, h2.size.trans h1.size, h1.writes.trans h2.writes, ?_, ?_⟩
    · intro w hw
      rcases mem_cons.1 hw with rfl | hw
      · exact h1.inRange _ (mem_singleton.2 rfl)
      · rw [← h1.size]
        exact h2.inRange w hw
    · have := h1.entries
      have := h2.entries
      simp only [length_cons, length_nil, map_cons] at *
      omega
    · exact fun _ => h2.filled (.inl (h1.filled (.inr (cons_ne_nil _ _))))

/-- What the loop over the giants does to the index and the store. -/
structure GiantsSeparated (cfg : Config) (items normal : List (VId × List VId)) (s s' : RawDb) :
    Prop where
  normal : normal = items.filter fun it => it.2.length < cfg.giantDegreeBound
  inRange : ∀ it ∈ items, cfg.giantDegreeBound ≤ it.2.length → it.1 < s.db.vertexIndex.size
  stored : ∀ it ∈ items, cfg.giantDegreeBound ≤ it.2.length →
    (s'.db.vertexIndex.items it.1).vertexType = .giant ∧
      s'.db.giantDb.store it.1 = some (it.2.insertionSort (· ≤ ·))
  others : ∀ v, v ∉ items.map Prod.fst → s'.db.vertexIndex.items v = s.db.vertexIndex.items v ∧
    s'.db.giantDb.store v = s.db.giantDb.store v
  size : s'.db.vertexIndex.size = s.db.vertexIndex.size
  deltaHeads : s'.db.vertexIndex.deltaHeads = s.db.vertexIndex.deltaHeads
  pageMap : s'.db.pageMap = s.db.pageMap
  csrPool : s'.db.csrPool = s.db.csrPool
  raw : s'.raw = s.raw
  writes : s'.writes = s.writes

theorem separateGiants_ok {items normal : List (VId × List VId)} (hids : (items.map Prod.fst).Nodup)
    (h : separateGiants cfg items s = .ok normal s') : GiantsSeparated cfg items normal s s' := by
  induction items generalizing normal s s' with
  | nil =>
    obtain ⟨rfl, rfl⟩ := pure_eq_ok.1 h
    exact ⟨rfl, nofun, nofun, fun v _ => ⟨rfl, rfl⟩, rfl, rfl, rfl, rfl, rfl, rfl⟩
  | cons it items ih =>
    obtain ⟨v, neighbors⟩ := it
    rw [map_cons, nodup_cons] at hids
    unfold separateGiants at h
    split_ifs at h with hgiant
    · obtain ⟨⟨⟩, s1, hstore, h⟩ := bind_eq_ok.1 h
      obtain ⟨⟨⟩, s0, hset, htype⟩ := bind_eq_ok.1 hstore
      cases hset
      obtain ⟨hv, rfl⟩ := setType_ok htype
      have h1 := ih hids.2 h
      obtain ⟨hitem, hkept⟩ := h1.others v hids.1
      refine ⟨?_, ?_, ?_, ?_, h1.size, h1.deltaHeads, h1.pageMap, h1.csrPool, h1.raw, h1.writes⟩
      · rw [h1.normal, filter_cons_of_neg]
        simpa using hgiant
      · intro it hit hg
        rcases mem_cons.1 hit with rfl | hit
        · exact hv
        · exact h1.inRange it hit hg
      · intro it hit hg
        rcases mem_cons.1 hit with rfl | hit
        · rw [hitem, hkept]
          exact ⟨by simp [VertexIndex.setVertexType], Function.update_self ..⟩
        · exact h1.stored it hit hg
      · intro w hw
        have hne : w ≠ v := fun he => hw (he ▸ mem_cons_self)
        obtain ⟨hitem', hkept'⟩ := h1.others w fun hin => hw (mem_cons_of_mem _ hin)
        rw [hitem', hkept']
        exact ⟨Function.update_of_ne hne .., Function.update_of_ne hne ..⟩
    · obtain ⟨normal1, s1, hrest, h⟩ := bind_eq_ok.1 h
      obtain ⟨rfl, rfl⟩ := pure_eq_ok.1 h
      have h1 := ih hids.2 hrest
      refine ⟨?_, ?_, ?_, ?_, h1.size, h1.deltaHeads, h1.pageMap, h1.csrPool, h1.raw, h1.writes⟩
      · rw [h1.normal, filter_cons_of_pos]
        simpa using hgiant
      · intro it hit hg
        rcases mem_cons.1 hit with rfl | hit
        · exact absurd hg hgiant
        · exact h1.inRange it hit hg
      · intro it hit hg
        rcases mem_cons.1 hit with rfl | hit
        · exact absurd hg hgiant
        · exact h1.stored it hit hg
      · exact fun w hw => h1.others w fun hin => hw (mem_cons_of_mem _ hin)

/-- The state after the index was resized. -/
def RawDb.resized (s : RawDb) (n : Nat) : RawDb :=
  { s with db := { s.db with vertexIndex := s.db.vertexIndex.resize n } }

/-- The ways in which the call returns true. -/
theorem insertVertexBatch_ok (h : insertVertexBatch cfg batch s = .ok true s') :
    (batch = [] ∧ s' = s) ∨
      (∀ it ∈ batch, s.db.vertexIndex.size ≤ it.1) ∧ ∃ n < 2 ^ 32, ∃ normal s1,
        separateGiants cfg batch (s.resized n) = .ok normal s1 ∧
          ((normal = [] ∧ s' = s1) ∨ normal ≠ [] ∧ ∃ page page' s2,
            packNormal cfg (BatchPage.fresh cfg) normal s1 = .ok page s2 ∧
              flushPage cfg page s2 = .ok page' s') := by
  unfold insertVertexBatch at h
  split_ifs at h with hempty
  · obtain ⟨-, rfl⟩ := pure_eq_ok.1 h
    exact .inl ⟨isEmpty_iff.1 hempty, rfl⟩
  · rw [EStateM.get_bind] at h
    dsimp only at h
    split_ifs at h with hexists
    · exact absurd (pure_eq_ok.1 h).1 (by decide)
    · obtain ⟨⟨⟩, s0, hset, h⟩ := bind_eq_ok.1 h
      cases hset
      obtain ⟨normal, s1, hsep, h⟩ := bind_eq_ok.1 h
      refine .inr ⟨?_, _, Nat.mod_lt _ (by decide), normal, s1, hsep, ?_⟩
      · intro it hit
        by_contra hlt
        exact hexists (any_eq_true.2 ⟨it, hit, decide_eq_true (Nat.lt_of_not_le hlt)⟩)
      · split_ifs at h with hnormal
        · obtain ⟨-, rfl⟩ := pure_eq_ok.1 h
          exact .inl ⟨isEmpty_iff.1 hnormal, rfl⟩
        · obtain ⟨page, s2, hpack, h⟩ := bind_eq_ok.1 h
          obtain ⟨page', s3, hflush, h⟩ := bind_eq_ok.1 h
          obtain ⟨-, rfl⟩ := pure_eq_ok.1 h
          exact .inr ⟨fun he => hnormal (isEmpty_iff.2 he), page, page', s2, hpack, hflush⟩

/-! ## When a batch is inserted -/

/-- The vertices of the batch read as given, the pages it wrote are accepted, and the vertices
that were there before read as before. -/
structure BatchInserted (cfg : Config) (batch : List (VId × List VId)) (s s' : RawDb) : Prop where
  reads : ∀ it ∈ batch, ∃ r, s'.Returns cfg it.1 r ∧ r.Perm it.2
  parses : ∀ new, s'.writes = new ++ s.writes → ∀ w ∈ new,
    ∃ parsed, parseFromPageData cfg w.2 = .ok parsed
  others : ∀ v < s.db.vertexIndex.size, v ∉ batch.map Prod.fst → ∀ fuel,
    s'.readNeighborClone cfg fuel v = s.readNeighborClone cfg fuel v

/-- A call with a normal vertex writes a page that is refused. -/
theorem not_batchInserted_of_normal {normal : List (VId × List VId)} {s1 s2 : RawDb}
    (hids : (normal.map Prod.fst).Nodup) (hne : normal ≠ [])
    (hsize : s1.db.vertexIndex.size < 2 ^ 32) (hwrites : s1.writes = s.writes)
    (hpack : packNormal cfg (BatchPage.fresh cfg) normal s1 = .ok page s2)
    (hflush : flushPage cfg page s2 = .ok page' s') : ¬ BatchInserted cfg batch s s' := by
  intro h
  have hp := packNormal_ok hpack
  have hfilled : page.entries ≠ [] := hp.filled (.inr fun he => hne (map_eq_nil_iff.1 he))
  have hlen : page.entries.length < 2 ^ 32 := by
    have hcount : (normal.map Prod.fst).length ≤ s1.db.vertexIndex.size := by
      have hsub := (subperm_of_subset hids fun v hv =>
        mem_range.2 (hp.inRange v hv)).length_le
      rwa [length_range] at hsub
    exact Nat.lt_of_le_of_lt (hp.entries.trans (by simpa [BatchPage.fresh] using hcount)) hsize
  rcases flushPage_ok hflush with ⟨he, -, -⟩ | ⟨-, -, -, p, hw⟩
  · exact hfilled he
  · obtain ⟨new, hnew⟩ := hp.writes
    exact parse_pageBytes hfilled hlen (h.parses ((p, page.bytes cfg) :: new)
      (by rw [hw, ← hnew, hwrites, cons_append]) _ mem_cons_self)

/-- The giants of a batch are read from their store. -/
theorem batchInserted_of_giants {n : Nat} {s1 : RawDb}
    (hnew : ∀ it ∈ batch, s.db.vertexIndex.size ≤ it.1)
    (h : GiantsSeparated cfg batch [] (s.resized n) s1)
    (hgiant : ∀ it ∈ batch, cfg.giantDegreeBound ≤ it.2.length) : BatchInserted cfg batch s s1 := by
  refine ⟨fun it hit => ?_, fun new hwrites w hw => ?_, fun v hv hout fuel => ?_⟩
  · obtain ⟨htype, hstore⟩ := h.stored it hit (hgiant it hit)
    have hlt : it.1 < n := h.inRange it hit (hgiant it hit)
    have hhead : s1.db.vertexIndex.deltaHeads it.1 = none := by
      rw [h.deltaHeads]
      exact if_pos ⟨hnew it hit, hlt⟩
    refine ⟨_, RawDb.returns_of_giant htype hhead, ?_⟩
    rw [GiantDb.readNeighborClone, hstore]
    exact perm_insertionSort _ _
  · have hnil : new = [] := append_left_eq_self.1 (hwrites.symm.trans h.writes)
    rw [hnil] at hw
    exact absurd hw not_mem_nil
  · obtain ⟨hitem, hstore⟩ := h.others v hout
    have hold : ¬ (s.db.vertexIndex.size ≤ v ∧ v < n) := fun hv' => Nat.not_le.2 hv hv'.1
    refine RawDb.readNeighborClone_congr (hitem.trans (if_neg hold)) ?_ hstore h.pageMap h.csrPool
      h.raw fuel
    rw [h.deltaHeads]
    exact if_neg hold

/-- A batch is inserted exactly when all its vertices are giant, so that no page is written. -/
theorem insertVertexBatch_iff (hids : (batch.map Prod.fst).Nodup)
    (hrun : insertVertexBatch cfg batch s = .ok true s') :
    BatchInserted cfg batch s s' ↔ ∀ it ∈ batch, cfg.giantDegreeBound ≤ it.2.length := by
  rcases insertVertexBatch_ok hrun with ⟨rfl, rfl⟩ | ⟨hnew, n, hn, normal, s1, hsep, hcase⟩
  · refine iff_of_true ⟨nofun, fun new hwrites w hw => ?_, fun _ _ _ _ => rfl⟩ nofun
    rw [append_left_eq_self.1 hwrites.symm] at hw
    exact absurd hw not_mem_nil
  · have h1 := separateGiants_ok hids hsep
    rcases hcase with ⟨rfl, rfl⟩ | ⟨hne, page, page', s2, hpack, hflush⟩
    · have hgiant : ∀ it ∈ batch, cfg.giantDegreeBound ≤ it.2.length := fun it hit => by
        have hno := filter_eq_nil_iff.1 h1.normal.symm it hit
        simpa using hno
      exact iff_of_true (batchInserted_of_giants hnew h1 hgiant) hgiant
    · refine iff_of_false (not_batchInserted_of_normal ?_ hne ?_ h1.writes hpack hflush) fun hg => ?_
      · rw [h1.normal]
        exact hids.sublist (filter_sublist.map _)
      · rw [h1.size]
        exact hn
      · refine hne (h1.normal.trans (filter_eq_nil_iff.2 fun it hit => ?_))
        simpa using hg it hit

/-- The loaded database of the giant graph, all of whose pages the pool has written. -/
def giantStart : RawDb := ⟨giantDb, fun _ => none, []⟩

/-- A batch of one giant vertex. -/
theorem insertVertexBatch_iff_giant :
    BatchInserted giantConfig [(5, [2, 0, 1])] giantStart
      (insertVertexBatch giantConfig [(5, [2, 0, 1])] giantStart).state :=
  (insertVertexBatch_iff (by decide) (EStateM.Result.eq_ok_of_value? (by decide +kernel))).2
    (by decide)

/-- A batch of one vertex with one neighbour: the call returns true, and its page is refused. -/
theorem not_batchInserted_normal :
    ¬ ∀ (cfg : Config) (paged : Set VId) (db : Db), Loaded cfg paged db →
      ∀ (batch : List (VId × List VId)) (s' : RawDb), (batch.map Prod.fst).Nodup →
        insertVertexBatch cfg batch ⟨db, fun _ => none, []⟩ = .ok true s' →
        BatchInserted cfg batch ⟨db, fun _ => none, []⟩ s' := by
  intro h
  have hrun : insertVertexBatch giantConfig [(5, [0])] giantStart =
      .ok true (insertVertexBatch giantConfig [(5, [0])] giantStart).state :=
    EStateM.Result.eq_ok_of_value? (by decide +kernel)
  have hall := h giantConfig _ giantDb (giantDb_built.loaded (by decide) (by decide) (by decide)).1
    [(5, [0])] _ (by decide) hrun
  have hwrites : ((insertVertexBatch giantConfig [(5, [0])] giantStart).state).writes.map
      (fun w => (parseFromPageData giantConfig w.2).isOk) = [false] := by decide +kernel
  obtain ⟨w, hw, hparse⟩ : ∃ w ∈ ((insertVertexBatch giantConfig [(5, [0])] giantStart).state).writes,
      (parseFromPageData giantConfig w.2).isOk = false := by
    have hmem : false ∈ [false] := mem_singleton.2 rfl
    rw [← hwrites] at hmem
    exact mem_map.1 hmem
  obtain ⟨parsed, hok⟩ := hall.parses _ (append_nil _).symm w hw
  rw [hok] at hparse
  cases hparse

end BwGraph
