import Mathlib.Data.Set.Insert
import BwGraph.Lib.Bytes
import BwGraph.Lib.Run
import BwGraph.Io.Index

/-
  The adjacency that an index page holds (`io_index.cc`). A page stands for a set of blocks and a
  set of directed edges between them (`Holds`): the blocks are in the array, and a bit of the
  matrix is set exactly when its row and its column belong to blocks of an edge, so the rows and
  columns behind the last block are clear. `build_from_block_adjmap` leaves such a page,
  `insert_block` and `insert_block_edge` keep it, and `get_block_adj_map` reads it back.
-/

namespace BwGraph

open Nat IndexPage

open Bytes
open List

namespace IndexPage

variable {cfg : IndexConfig}

/-! ## The bit matrix -/

theorem putBytes_eq_poke {data bytes : List Nat} {off : Nat}
    (h : off + bytes.length ≤ data.length) : putBytes data off bytes = poke data off bytes := by
  rw [putBytes, poke_eq h, append_assoc]

/-- The bit of a row and a column is one of the matrix. -/
theorem bitIndex_lt {n i j : Nat} (hi : i < n) (hj : j < n) : i * n + j < n * n := by
  calc i * n + j < i * n + n := Nat.add_lt_add_left hj _
    _ = (i + 1) * n := (succ_mul _ _).symm
    _ ≤ n * n := Nat.mul_le_mul_right _ hi

theorem bitIndex_inj {n i j k l : Nat} (hj : j < n) (hl : l < n) :
    i * n + j = k * n + l ↔ i = k ∧ j = l := by
  constructor
  · intro h
    have hpos : 0 < n := Nat.lt_of_le_of_lt (Nat.zero_le _) hj
    have hdiv : (i * n + j) / n = (k * n + l) / n := congrArg (· / n) h
    have hmod : (i * n + j) % n = (k * n + l) % n := congrArg (· % n) h
    rw [Nat.mul_comm i, Nat.mul_comm k, mul_add_div hpos, mul_add_div hpos,
      div_eq_of_lt hj, div_eq_of_lt hl] at hdiv
    rw [Nat.mul_comm i, Nat.mul_comm k, mul_add_mod, mul_add_mod,
      mod_eq_of_lt hj, mod_eq_of_lt hl] at hmod
    exact ⟨hdiv, hmod⟩
  · rintro ⟨rfl, rfl⟩
    rfl

variable {i j : Nat}

variable {p : IndexPage}

theorem getBitmapBit_eq (hi : i < cfg.maxBlocks) (hj : j < cfg.maxBlocks) :
    p.getBitmapBit cfg i j = bit p.data (bitmapOff cfg) (i * cfg.maxBlocks + j) := by
  rw [getBitmapBit, if_neg (by omega)]
  rfl

/-- The bit lies in the bitmap. -/
theorem byteIndex_lt (hi : i < cfg.maxBlocks) (hj : j < cfg.maxBlocks) :
    (i * cfg.maxBlocks + j) / 8 < bitmapSize cfg := by
  have hlt := bitIndex_lt hi hj
  unfold bitmapSize
  omega

theorem setBitmapBit_data (h : p.data.length = cfg.pageSize) (hi : i < cfg.maxBlocks)
    (hj : j < cfg.maxBlocks) :
    (p.setBitmapBit cfg i j).data =
      setBit p.data (bitmapOff cfg) (i * cfg.maxBlocks + j) := by
  have hbyte := byteIndex_lt hi hj
  have hsize := bitmap_le cfg
  rw [setBitmapBit, if_neg (by omega)]
  dsimp only
  rw [putBytes_eq_poke, setBit]
  simp only [length_cons, length_nil]
  omega

/-- Setting a bit changes no other bit of the matrix. -/
theorem getBitmapBit_setBitmapBit (h : p.data.length = cfg.pageSize) {i j k l : Nat}
    (hi : i < cfg.maxBlocks) (hj : j < cfg.maxBlocks) (hk : k < cfg.maxBlocks)
    (hl : l < cfg.maxBlocks) :
    (p.setBitmapBit cfg i j).getBitmapBit cfg k l =
      (p.getBitmapBit cfg k l || decide (i = k ∧ j = l)) := by
  have hbyte := byteIndex_lt hi hj
  have hsize := bitmap_le cfg
  have hin : bitmapOff cfg + (i * cfg.maxBlocks + j) / 8 < p.data.length := by omega
  rw [getBitmapBit_eq hk hl, getBitmapBit_eq hk hl, setBitmapBit_data h hi hj, bit_setBit hin]
  congr 1
  exact decide_eq_decide.2 (bitIndex_inj hj hl)

/-- A store in front of the bitmap changes no bit. -/
theorem getBitmapBit_putBytes {bytes : List Nat} {off i j : Nat} (h : p.data.length = cfg.pageSize)
    (hoff : off + bytes.length ≤ bitmapOff cfg) (hi : i < cfg.maxBlocks) (hj : j < cfg.maxBlocks) :
    bit (putBytes p.data off bytes) (bitmapOff cfg) (i * cfg.maxBlocks + j) =
      p.getBitmapBit cfg i j := by
  have hbyte := byteIndex_lt hi hj
  have hsize := bitmap_le cfg
  rw [getBitmapBit_eq hi hj, putBytes_eq_poke (by omega)]
  exact bit_congr (n := bitmapSize cfg) (agreeOn_poke _ (.inr hoff)) (by omega)

/-! ## The graph of a page -/

/-- The page has all its bytes, lists the blocks, and a bit is set exactly for an edge between the
    blocks of its row and its column. -/
structure Holds (cfg : IndexConfig) (p : IndexPage) (blocks : List PageNo)
    (edges : Set (PageNo × PageNo)) : Prop where
  length : p.data.length = cfg.pageSize
  lists : p.Lists cfg blocks
  le : blocks.length ≤ cfg.maxBlocks
  nodup : blocks.Nodup
  lt : ∀ b ∈ blocks, b < 2 ^ 32
  among : ∀ e ∈ edges, e.1 ∈ blocks ∧ e.2 ∈ blocks
  bits : ∀ i < cfg.maxBlocks, ∀ j < cfg.maxBlocks, p.getBitmapBit cfg i j = true ↔
    ∃ b c, blocks[i]? = some b ∧ blocks[j]? = some c ∧ (b, c) ∈ edges

variable {b : PageNo}

theorem getElem?_eq_some_iff_idxOf {blocks : List PageNo} (h : blocks.Nodup) (hb : b ∈ blocks)
    (i : Nat) : blocks[i]? = some b ↔ blocks.idxOf b = i := by
  constructor
  · intro hi
    obtain ⟨hlt, rfl⟩ := List.getElem?_eq_some_iff.1 hi
    exact h.idxOf_getElem i hlt
  · rintro rfl
    exact List.getElem?_idxOf hb

section

variable {p : IndexPage} {blocks : List PageNo} {edges : Set (PageNo × PageNo)}
  (h : p.Holds cfg blocks edges)
include h

theorem Holds.getBlocks : p.getBlocks cfg = blocks := h.lists.getBlocks h.lt

omit h in
theorem Holds.congr {p q : IndexPage} {blocks : List PageNo} {edges : Set (PageNo × PageNo)}
    (h : p.Holds cfg blocks edges) (hdata : q.data = p.data) (hnum : q.numBlocks = p.numBlocks) :
    q.Holds cfg blocks edges := by
  have hbit : ∀ i j, q.getBitmapBit cfg i j = p.getBitmapBit cfg i j := by
    intro i j
    unfold getBitmapBit
    rw [hdata]
  refine ⟨hdata ▸ h.length, ⟨hdata ▸ h.lists.blocksAt, hnum ▸ h.lists.numBlocks⟩, h.le, h.nodup,
    h.lt, h.among, fun i hi j hj => ?_⟩
  rw [hbit]
  exact h.bits i hi j hj

/-- Setting the bit of two blocks adds the edge between them. -/
theorem Holds.setBitmapBit {src dest : PageNo} (hsrc : src ∈ blocks) (hdest : dest ∈ blocks) :
    (p.setBitmapBit cfg (blocks.idxOf src) (blocks.idxOf dest)).Holds cfg blocks
      (insert (src, dest) edges) := by
  have hi : blocks.idxOf src < cfg.maxBlocks :=
    Nat.lt_of_lt_of_le (idxOf_lt_length_iff.2 hsrc) h.le
  have hj : blocks.idxOf dest < cfg.maxBlocks :=
    Nat.lt_of_lt_of_le (idxOf_lt_length_iff.2 hdest) h.le
  refine ⟨length_setBitmapBit h.length _ _, h.lists.setBitmapBit h.le _ _, h.le, h.nodup, h.lt,
    ?_, ?_⟩
  · rintro e (rfl | he)
    · exact ⟨hsrc, hdest⟩
    · exact h.among e he
  · intro k hk l hl
    rw [getBitmapBit_setBitmapBit h.length hi hj hk hl, Bool.or_eq_true, h.bits k hk l hl,
      decide_eq_true_eq]
    constructor
    · rintro (⟨b, c, hb, hc, he⟩ | ⟨hk', hl'⟩)
      · exact ⟨b, c, hb, hc, .inr he⟩
      · exact ⟨src, dest, (getElem?_eq_some_iff_idxOf h.nodup hsrc k).2 hk',
          (getElem?_eq_some_iff_idxOf h.nodup hdest l).2 hl', .inl rfl⟩
    · rintro ⟨b, c, hb, hc, heq | he⟩
      · injection heq with h1 h2
        subst h1 h2
        exact .inr ⟨(getElem?_eq_some_iff_idxOf h.nodup hsrc k).1 hb,
          (getElem?_eq_some_iff_idxOf h.nodup hdest l).1 hc⟩
      · exact .inl ⟨b, c, hb, hc, he⟩

end

/-! ## The builder -/

/-- The page before the bits are set has no edge. -/
theorem holds_writeBlocks {p : IndexPage} (h : p.data.length = cfg.pageSize) {blocks : List PageNo}
    (hb : blocks.length ≤ cfg.maxBlocks) (hnd : blocks.Nodup) (hlt : ∀ b ∈ blocks, b < 2 ^ 32) :
    (p.writeBlocks cfg blocks).Holds cfg blocks ∅ := by
  have hlen := length_writeBlocks h hb
  refine ⟨hlen, lists_writeBlocks h hb, hb, hnd, hlt, fun e he => absurd he id, ?_⟩
  intro i hi j hj
  have hbyte := byteIndex_lt hi hj
  have hzeros : ((p.writeBlocks cfg blocks).data.drop (bitmapOff cfg)).take (bitmapSize cfg) =
      List.replicate (bitmapSize cfg) 0 := by
    have hsize := bitmap_le cfg
    have hlen' := hlen
    unfold writeBlocks at hlen' ⊢
    dsimp only at hlen' ⊢
    generalize putBytes (putBytes _ _ _) _ (blocks.flatMap wordWrite) = data at hlen' ⊢
    have htake : (data.take (bitmapOff cfg)).length = bitmapOff cfg := by
      simp only [putBytes, length_append, length_take, length_drop,
        length_replicate] at hlen' ⊢
      omega
    rw [putBytes, append_assoc, drop_left' htake]
    exact take_left' length_replicate
  rw [getBitmapBit_eq hi hj, bit_of_zeros hzeros (by omega)]
  simp

/-- The edges of a row: its block with the listed blocks that are in the page. -/
def rowEdges (blocks : List PageNo) (row : PageNo × List PageNo) : Set (PageNo × PageNo) :=
  {e | e.1 = row.1 ∧ e.2 ∈ row.2 ∧ e.2 ∈ blocks}

section

variable {p : IndexPage} {blocks : List PageNo} {edges : Set (PageNo × PageNo)}
  (h : p.Holds cfg blocks edges)
include h

theorem Holds.writeRow {row : PageNo × List PageNo} (hrow : row.1 ∈ blocks) :
    (writeRow cfg blocks p row).Holds cfg blocks (edges ∪ rowEdges blocks row) := by
  obtain ⟨b, adjs⟩ := row
  unfold IndexPage.writeRow
  dsimp only at hrow ⊢
  induction adjs generalizing p edges with
  | nil =>
    have hnone : edges ∪ rowEdges blocks (b, []) = edges := by
      ext e
      simp [rowEdges]
    rw [hnone]
    exact h
  | cons adj rest ih =>
    rw [foldl_cons]
    by_cases hadj : adj ∈ blocks
    · rw [if_pos hadj]
      have hsame : edges ∪ rowEdges blocks (b, adj :: rest) =
          insert (b, adj) edges ∪ rowEdges blocks (b, rest) := by
        ext ⟨x, y⟩
        simp only [rowEdges, Set.mem_union, Set.mem_ofPred_eq, mem_cons, Set.mem_insert_iff,
          Prod.mk.injEq]
        constructor
        · rintro (he | ⟨rfl, rfl | hy, hin⟩)
          · exact .inl (.inr he)
          · exact .inl (.inl ⟨rfl, rfl⟩)
          · exact .inr ⟨rfl, hy, hin⟩
        · rintro ((⟨rfl, rfl⟩ | he) | ⟨rfl, hy, hin⟩)
          · exact .inr ⟨rfl, .inl rfl, hadj⟩
          · exact .inl he
          · exact .inr ⟨rfl, .inr hy, hin⟩
      rw [hsame]
      exact ih (h.setBitmapBit hrow hadj)
    · rw [if_neg hadj]
      have hsame : rowEdges blocks (b, adj :: rest) = rowEdges blocks (b, rest) := by
        ext ⟨x, y⟩
        simp only [rowEdges, Set.mem_ofPred_eq, mem_cons]
        constructor
        · rintro ⟨hx, rfl | hy, hin⟩
          · exact absurd hin hadj
          · exact ⟨hx, hy, hin⟩
        · rintro ⟨hx, hy, hin⟩
          exact ⟨hx, .inr hy, hin⟩
      rw [hsame]
      exact ih h

theorem Holds.writeRows {rows : List (PageNo × List PageNo)} (hrows : ∀ row ∈ rows, row.1 ∈ blocks) :
    (rows.foldl (IndexPage.writeRow cfg blocks) p).Holds cfg blocks
      (edges ∪ {e | ∃ row ∈ rows, e ∈ rowEdges blocks row}) := by
  induction rows generalizing p edges with
  | nil =>
    have hnone : edges ∪ {e | ∃ row ∈ ([] : List (PageNo × List PageNo)), e ∈ rowEdges blocks row} =
        edges := by
      ext e
      simp
    rw [hnone]
    exact h
  | cons row rest ih =>
    have hsame : edges ∪ {e | ∃ r ∈ row :: rest, e ∈ rowEdges blocks r} =
        edges ∪ rowEdges blocks row ∪ {e | ∃ r ∈ rest, e ∈ rowEdges blocks r} := by
      ext e
      simp only [Set.mem_union, Set.mem_ofPred_eq, exists_mem_cons_iff]
      rw [or_assoc]
    rw [foldl_cons, hsame]
    exact ih (h.writeRow (hrows row mem_cons_self)) fun r hr =>
      hrows r (mem_cons_of_mem _ hr)

end

/-- The edges of a map between its own keys. -/
def BlockAdjMap.edgesWithin (graph : BlockAdjMap) : Set (PageNo × PageNo) :=
  {e | e.1 ∈ graph ∧ e.2 ∈ getNeighborPages graph e.1 ∧ e.2 ∈ graph}

theorem create_holds {ho : HashOrder} {fresh : Nat} {pageNo : PageNo} {graph : BlockAdjMap}
    {p : IndexPage} (hlt : ∀ b ∈ graph, b < 2 ^ 32) (h : create cfg ho fresh pageNo graph = .ok p) :
    p.Holds cfg (ho.order graph.keys) (BlockAdjMap.edgesWithin graph) := by
  obtain ⟨hlen, rfl⟩ := create_ok h
  have hperm := ho.perm graph.keys
  have hmem : ∀ b, b ∈ ho.order graph.keys ↔ b ∈ graph := fun b => hperm.mem_iff
  have hstart := holds_writeBlocks (p := raw cfg fresh pageNo) length_replicate hlen
    (hperm.nodup_iff.2 graph.keys_nodup) fun b hb => hlt b ((hmem b).1 hb)
  have hin : ∀ row ∈ (ho.order graph.keys).map fun b => (b, getNeighborPages graph b),
      row.1 ∈ ho.order graph.keys := by simp
  have hrows := hstart.writeRows hin
  have hedges : ∅ ∪ {e | ∃ row ∈ (ho.order graph.keys).map fun b => (b, getNeighborPages graph b),
      e ∈ rowEdges (ho.order graph.keys) row} = BlockAdjMap.edgesWithin graph := by
    ext e
    obtain ⟨x, y⟩ := e
    simp only [Set.empty_union, Set.mem_ofPred_eq, mem_map, rowEdges,
      BlockAdjMap.edgesWithin, hmem]
    constructor
    · rintro ⟨row, ⟨b, hb, rfl⟩, rfl, hadj, hin⟩
      exact ⟨hb, hadj, hin⟩
    · rintro ⟨hx, hadj, hin⟩
      exact ⟨_, ⟨x, hx, rfl⟩, rfl, hadj, hin⟩
  rw [hedges] at hrows
  exact hrows.congr rfl rfl

/-! ## Reading the graph back -/

section

variable {k : Nat → PageNo} {f : Nat → List PageNo} {is : List Nat}

theorem lookup_foldl_insert_of_notMem (hb : b ∉ is.map k) (adj : BlockAdjMap) :
    (is.foldl (fun adj i => adj.insert (k i) (f i)) adj).lookup b = adj.lookup b := by
  induction is generalizing adj with
  | nil => rfl
  | cons i is ih =>
    rw [map_cons, mem_cons, not_or] at hb
    rw [foldl_cons, ih hb.2, AList.lookup_insert_ne hb.1]

/-- The map of rows with distinct keys. -/
theorem lookup_foldl_insert (hnd : (is.map k).Nodup) (adj : BlockAdjMap) {i : Nat} (hi : i ∈ is) :
    (is.foldl (fun adj i => adj.insert (k i) (f i)) adj).lookup (k i) = some (f i) := by
  induction is generalizing adj with
  | nil => cases hi
  | cons j is ih =>
    rw [map_cons, nodup_cons] at hnd
    rw [foldl_cons]
    obtain rfl | hi := mem_cons.1 hi
    · rw [lookup_foldl_insert_of_notMem hnd.1, AList.lookup_insert]
    · exact ih hnd.2 _ hi

end

/-- The blocks of `get_block_adj_map`. -/
def blockSet (cfg : IndexConfig) (p : IndexPage) : Set PageNo := {b | b ∈ p.getBlockAdjMap cfg}

/-- The pairs of `get_block_adj_map`. -/
def blockEdges (cfg : IndexConfig) (p : IndexPage) : Set (PageNo × PageNo) :=
  {e | e.2 ∈ getNeighborPages (p.getBlockAdjMap cfg) e.1}

variable {p : IndexPage} {blocks : List PageNo} {edges : Set (PageNo × PageNo)}

section

variable (h : p.Holds cfg blocks edges)
include h

theorem Holds.blockSet : p.blockSet cfg = {b | b ∈ blocks} := by
  ext b
  unfold IndexPage.blockSet getBlockAdjMap
  rw [h.getBlocks, h.lists.numBlocks]
  simp only [Set.mem_ofPred_eq]
  rw [← AList.lookup_isSome]
  constructor
  · intro hb
    by_contra hnot
    rw [← map_getD_range blocks 0] at hnot
    rw [lookup_foldl_insert_of_notMem hnot] at hb
    cases hb
  · intro hb
    obtain ⟨i, hi, rfl⟩ := getElem_of_mem hb
    have hnd : ((List.range blocks.length).map fun i => blocks.getD i 0).Nodup := by
      rw [map_getD_range]
      exact h.nodup
    have hget : blocks.getD i 0 = blocks[i] := by simp [hi]
    rw [← hget, lookup_foldl_insert hnd _ (mem_range.2 hi)]
    rfl

/-- The row of a block lists the blocks at the end of its edges. -/
theorem Holds.lookup (hb : b ∈ blocks) :
    ∃ row, (p.getBlockAdjMap cfg).lookup b = some row ∧ ∀ c, c ∈ row ↔ (b, c) ∈ edges := by
  obtain ⟨i, hi, rfl⟩ := getElem_of_mem hb
  have hnd : ((List.range blocks.length).map fun i => blocks.getD i 0).Nodup := by
    rw [map_getD_range]
    exact h.nodup
  have hget : blocks.getD i 0 = blocks[i] := by simp [hi]
  refine ⟨((List.range blocks.length).filter fun j => p.getBitmapBit cfg i j).map
    fun j => blocks.getD j 0, ?_, fun c => ?_⟩
  · unfold getBlockAdjMap
    rw [h.getBlocks, h.lists.numBlocks, ← hget, lookup_foldl_insert hnd _ (mem_range.2 hi)]
  · have hile := Nat.lt_of_lt_of_le hi h.le
    simp only [mem_map, mem_filter, mem_range]
    constructor
    · rintro ⟨j, ⟨hj, hbit⟩, rfl⟩
      obtain ⟨x, y, hx, hy, he⟩ := (h.bits i hile j (Nat.lt_of_lt_of_le hj h.le)).1 hbit
      rw [getElem?_eq_getElem hi, Option.some.injEq] at hx
      rw [getD_eq_getElem?_getD, hy, hx]
      exact he
    · intro he
      obtain ⟨j, hj, rfl⟩ := getElem_of_mem (h.among _ he).2
      refine ⟨j, ⟨hj, ?_⟩, by simp [hj]⟩
      exact (h.bits i hile j (Nat.lt_of_lt_of_le hj h.le)).2
        ⟨_, _, getElem?_eq_getElem hi, getElem?_eq_getElem hj, he⟩

theorem Holds.blockEdges : p.blockEdges cfg = edges := by
  ext ⟨b, c⟩
  simp only [IndexPage.blockEdges, Set.mem_ofPred_eq, getNeighborPages]
  by_cases hb : b ∈ blocks
  · obtain ⟨row, hrow, hmem⟩ := h.lookup hb
    rw [hrow]
    exact hmem c
  · have hkey : b ∉ p.getBlockAdjMap cfg := by
      intro hin
      have hset : b ∈ p.blockSet cfg := hin
      rw [h.blockSet] at hset
      exact hb hset
    rw [AList.lookup_eq_none.2 hkey]
    constructor
    · intro hc
      cases hc
    · intro he
      exact absurd (h.among _ he).1 hb

end

/-! ## The two setters -/

/-- A new block is stored behind the others. -/
theorem BlocksAt.snoc {data : List Nat} (h : BlocksAt cfg data blocks) (b : PageNo) :
    BlocksAt cfg (putBytes data (blocksOff cfg + blocks.length * 4) (wordWrite b))
      (blocks ++ [b]) := by
  obtain ⟨front, rest, rfl, hfront⟩ := h
  have hwords := length_flatMap_wordWrite blocks
  refine ⟨front, rest.drop 4, ?_, hfront⟩
  rw [putBytes_append_right (by omega), putBytes_append_right (by omega)]
  have hat : blocksOff cfg + blocks.length * 4 - front.length -
      (blocks.flatMap wordWrite).length = 0 := by omega
  rw [hat, flatMap_append, append_assoc]
  rfl

section

variable (h : p.Holds cfg blocks edges) (hp : p.Formed cfg)
include h hp

theorem Holds.insertBlock_cases (b : PageNo) :
    p.insertBlock cfg b = (false, p) ∨
      blocks.length < cfg.maxBlocks ∧ b ∉ blocks ∧ p.insertBlock cfg b = (true, { p with
        numBlocks := blocks.length + 1
        data := putBytes (putBytes p.data (blocksOff cfg + blocks.length * 4) (wordWrite b)) 0
          (longWrite (blocks.length + 1)) }) := by
  unfold insertBlock
  rw [hp.selfParse]
  dsimp only
  rw [h.getBlocks, h.lists.numBlocks]
  split
  · exact .inl rfl
  · rename_i hfull
    split
    · exact .inl rfl
    · rename_i hnew
      exact .inr ⟨by omega, hnew, rfl⟩

/-- A block that is stored behind the others has no edge: its row and its column are clear. -/
theorem Holds.insertBlock (hb : b < 2 ^ 32) (htrue : (p.insertBlock cfg b).1 = true) :
    b ∉ blocks ∧ (p.insertBlock cfg b).2.Holds cfg (blocks ++ [b]) edges := by
  have hsize := bitmap_le cfg
  have hoff : bitmapOff cfg = blocksOff cfg + cfg.maxBlocks * 4 := rfl
  have hmeta : blocksOff cfg = 12 + cfg.maxBlockNeighbor * 4 := rfl
  have hformed := hp.insertBlock b
  obtain heq | ⟨hroom, hnew, heq⟩ := h.insertBlock_cases hp b
  · rw [heq] at htrue
    cases htrue
  · rw [heq] at hformed ⊢
    refine ⟨hnew, hformed.length, ⟨?_, ?_⟩, ?_, ?_, ?_, ?_, ?_⟩
    · refine (h.lists.blocksAt.snoc b).before ?_
      rw [length_longWrite]
      omega
    · rw [length_append, length_singleton]
    · rw [length_append, length_singleton]
      exact hroom
    · rw [nodup_append]
      refine ⟨h.nodup, nodup_singleton b, fun x hx y hy hxy => hnew ?_⟩
      rw [← mem_singleton.1 hy, ← hxy]
      exact hx
    · intro x hx
      obtain hx | hx := mem_append.1 hx
      · exact h.lt x hx
      · rw [mem_singleton.1 hx]
        exact hb
    · intro e he
      exact ⟨mem_append_left _ (h.among e he).1, mem_append_left _ (h.among e he).2⟩
    · intro i hi j hj
      let q : IndexPage := { p with
        data := putBytes p.data (blocksOff cfg + blocks.length * 4) (wordWrite b) }
      have hfit : blocksOff cfg + blocks.length * 4 + (wordWrite b).length ≤ bitmapOff cfg := by
        rw [length_wordWrite]
        omega
      have hq : q.data.length = cfg.pageSize :=
        (length_putBytes (by rw [h.length]; omega)).trans h.length
      have hbit : bit q.data (bitmapOff cfg) (i * cfg.maxBlocks + j) = p.getBitmapBit cfg i j :=
        getBitmapBit_putBytes h.length hfit hi hj
      rw [getBitmapBit_eq hi hj]
      dsimp only
      rw [getBitmapBit_putBytes (p := q) hq (by rw [length_longWrite]; omega) hi hj,
        getBitmapBit_eq hi hj, hbit, h.bits i hi j hj]
      -- an index of an end of an edge is one of the old blocks
      have hold : ∀ (k : Nat) (x : PageNo), x ∈ blocks →
          ((blocks ++ [b])[k]? = some x ↔ blocks[k]? = some x) := by
        intro k x hx
        by_cases hk : k < blocks.length
        · rw [getElem?_append_left hk]
        · rw [getElem?_eq_none (Nat.not_lt.1 hk), getElem?_append_right (Nat.not_lt.1 hk)]
          constructor
          · intro hget
            have hxb := mem_singleton.1 (mem_of_getElem? hget)
            exact absurd (hxb ▸ hx) hnew
          · intro hget
            cases hget
      constructor
      · rintro ⟨x, y, hx, hy, he⟩
        exact ⟨x, y, (hold i x (h.among _ he).1).2 hx, (hold j y (h.among _ he).2).2 hy, he⟩
      · rintro ⟨x, y, hx, hy, he⟩
        exact ⟨x, y, (hold i x (h.among _ he).1).1 hx, (hold j y (h.among _ he).2).1 hy, he⟩

theorem Holds.insertBlockEdge_cases (src dest : PageNo) :
    p.insertBlockEdge cfg src dest = (false, p) ∨
      src ∈ blocks ∧ dest ∈ blocks ∧ p.insertBlockEdge cfg src dest =
        (true, p.setBitmapBit cfg (blocks.idxOf src) (blocks.idxOf dest)) := by
  unfold insertBlockEdge
  rw [hp.selfParse]
  dsimp only
  rw [h.getBlocks]
  split
  · exact .inl rfl
  · rename_i hin
    rw [not_or, not_not, not_not] at hin
    exact .inr ⟨hin.1, hin.2, rfl⟩

end

/-! ## Runs of the setters -/

/-- A call of one of the two setters. -/
inductive SetterCall where
  | insertBlock (blockNo : PageNo)
  | insertBlockEdge (src dest : PageNo)
  deriving DecidableEq, Repr

/-- The arguments are `page_no_t` values. -/
def SetterCall.Ranged : SetterCall → Prop
  | .insertBlock b => b < 2 ^ 32
  | .insertBlockEdge src dest => src < 2 ^ 32 ∧ dest < 2 ^ 32

/-- What a call returns, and the page after it. -/
def setterCall (cfg : IndexConfig) (p : IndexPage) : SetterCall → Bool × IndexPage
  | .insertBlock b => p.insertBlock cfg b
  | .insertBlockEdge src dest => p.insertBlockEdge cfg src dest

/-- The page after some calls. -/
def setterCalls (cfg : IndexConfig) (p : IndexPage) (calls : List SetterCall) : IndexPage :=
  calls.foldl (fun p call => (p.setterCall cfg call).2) p

/-- What a call that returns true adds: one block that was not there, or one directed edge between
    two blocks. A call that returns false leaves the page as it is. -/
structure AddsExactly (cfg : IndexConfig) (p : IndexPage) (call : SetterCall) : Prop where
  refused : (p.setterCall cfg call).1 = false → (p.setterCall cfg call).2 = p
  block : ∀ b, call = .insertBlock b → (p.setterCall cfg call).1 = true →
    b ∉ p.blockSet cfg ∧ (p.setterCall cfg call).2.blockSet cfg = insert b (p.blockSet cfg) ∧
      (p.setterCall cfg call).2.blockEdges cfg = p.blockEdges cfg
  edge : ∀ src dest, call = .insertBlockEdge src dest → (p.setterCall cfg call).1 = true →
    src ∈ p.blockSet cfg ∧ dest ∈ p.blockSet cfg ∧
      (p.setterCall cfg call).2.blockSet cfg = p.blockSet cfg ∧
      (p.setterCall cfg call).2.blockEdges cfg = insert (src, dest) (p.blockEdges cfg)

/-- One call keeps the page in order and adds exactly what it says. -/
theorem Holds.setterCall (h : p.Holds cfg blocks edges) (hp : p.Formed cfg) {call : SetterCall}
    (hcall : call.Ranged) :
    p.AddsExactly cfg call ∧ (p.setterCall cfg call).2.Formed cfg ∧
      ∃ blocks' edges', (p.setterCall cfg call).2.Holds cfg blocks' edges' := by
  cases call with
  | insertBlock b =>
    refine ⟨⟨?_, ?_, fun src dest hc => nomatch hc⟩, hp.insertBlock b, ?_⟩
    · intro hfalse
      obtain heq | ⟨-, -, heq⟩ := h.insertBlock_cases hp b
      · exact congrArg Prod.snd heq
      · have htrue : (p.insertBlock cfg b).1 = true := congrArg Prod.fst heq
        exact absurd (htrue.symm.trans hfalse) (by decide)
    · rintro b' ⟨⟩ htrue
      obtain ⟨hnew, hafter⟩ := h.insertBlock hp hcall htrue
      rw [h.blockSet, h.blockEdges, IndexPage.setterCall, hafter.blockSet, hafter.blockEdges]
      refine ⟨hnew, ?_, rfl⟩
      ext x
      simp only [Set.mem_ofPred_eq, Set.mem_insert_iff, mem_append, mem_singleton]
      exact or_comm
    · obtain heq | ⟨-, -, heq⟩ := h.insertBlock_cases hp b
      · rw [IndexPage.setterCall, heq]
        exact ⟨blocks, edges, h⟩
      · exact ⟨_, _, (h.insertBlock hp hcall (congrArg Prod.fst heq)).2⟩
  | insertBlockEdge src dest =>
    obtain heq | ⟨hsrc, hdest, heq⟩ := h.insertBlockEdge_cases hp src dest
    · refine ⟨⟨fun _ => congrArg Prod.snd heq, fun b hc => (nomatch hc), ?_⟩,
        hp.insertBlockEdge src dest, ?_⟩
      · rintro src' dest' ⟨⟩ htrue
        have hfalse : (p.insertBlockEdge cfg src dest).1 = false := congrArg Prod.fst heq
        exact absurd (htrue.symm.trans hfalse) (by decide)
      · rw [IndexPage.setterCall, heq]
        exact ⟨blocks, edges, h⟩
    · have hafter := h.setBitmapBit hsrc hdest
      refine ⟨⟨?_, fun b hc => (nomatch hc), ?_⟩, hp.insertBlockEdge src dest, ?_⟩
      · intro hfalse
        have htrue : (p.insertBlockEdge cfg src dest).1 = true := congrArg Prod.fst heq
        exact absurd (htrue.symm.trans hfalse) (by decide)
      · rintro src' dest' ⟨⟩ -
        rw [IndexPage.setterCall, heq, h.blockSet, h.blockEdges, hafter.blockSet,
          hafter.blockEdges]
        exact ⟨hsrc, hdest, rfl, rfl⟩
      · rw [IndexPage.setterCall, heq]
        exact ⟨_, _, hafter⟩

theorem Holds.setterCalls {calls : List SetterCall} (hcalls : ∀ call ∈ calls, call.Ranged) :
    ∀ {p : IndexPage} {blocks : List PageNo} {edges : Set (PageNo × PageNo)},
      p.Holds cfg blocks edges → p.Formed cfg → (p.setterCalls cfg calls).Formed cfg ∧
        ∃ blocks' edges', (p.setterCalls cfg calls).Holds cfg blocks' edges' := by
  induction calls with
  | nil =>
    intro p blocks edges h hp
    exact ⟨hp, blocks, edges, h⟩
  | cons call calls ih =>
    intro p blocks edges h hp
    obtain ⟨-, hp', blocks', edges', h'⟩ := h.setterCall hp (hcalls call mem_cons_self)
    exact ih (fun c hc => hcalls c (mem_cons_of_mem _ hc)) h' hp'

/-- The graph of a page. A page built from a map that fits has the blocks of the map and the listed
    edges between them; and after any calls of the two setters, the next one adds exactly the block
    or the edge it is for when it returns true, and nothing otherwise. -/
theorem blockGraph_of_create {ho : HashOrder} {graph : BlockAdjMap} (fresh : Nat) (pageNo : PageNo)
    (hlt : ∀ b ∈ graph, b < 2 ^ 32) (hcap : graph.keys.length ≤ cfg.maxBlocks) :
    ∃ p, create cfg ho fresh pageNo graph = .ok p ∧
      p.blockSet cfg = {b | b ∈ graph} ∧
      (∀ b ∈ graph, ∀ c, c ∈ getNeighborPages (p.getBlockAdjMap cfg) b ↔
        c ∈ getNeighborPages graph b ∧ c ∈ graph) ∧
      ∀ calls : List SetterCall, (∀ call ∈ calls, call.Ranged) → ∀ call : SetterCall, call.Ranged →
        (p.setterCalls cfg calls).AddsExactly cfg call := by
  obtain ⟨p, hok⟩ := create_isOk_iff.2 hcap
  have h := create_holds hlt hok
  refine ⟨p, hok, ?_, ?_, ?_⟩
  · rw [h.blockSet]
    ext b
    exact (ho.perm graph.keys).mem_iff
  · intro b hb c
    have hiff : (b, c) ∈ p.blockEdges cfg ↔ (b, c) ∈ BlockAdjMap.edgesWithin graph := by
      rw [h.blockEdges]
    refine hiff.trans ?_
    constructor
    · rintro ⟨-, hc⟩
      exact hc
    · intro hc
      exact ⟨hb, hc⟩
  · intro calls hcalls call hcall
    obtain ⟨hp, blocks, edges, hafter⟩ := Holds.setterCalls hcalls h (create_formed hok)
    exact (hafter.setterCall hp hcall).1

/-- A page of 64 bytes with room for two neighbour pages and four blocks. -/
def fourBlockConfig : IndexConfig := ⟨64, 2, 4, 0, by decide, by decide, zero_lt_pageNos⟩

/-- Block 5 lists block 7 and the absent 9. -/
def twoBlockGraph : BlockAdjMap := AList.insert 5 [7, 9] (AList.insert 7 [] ∅)

theorem blockGraph_of_create_two :
    ∃ p, create fourBlockConfig .listed 0 3 twoBlockGraph = .ok p ∧
      p.blockSet fourBlockConfig = {b | b ∈ twoBlockGraph} ∧
      (∀ b ∈ twoBlockGraph, ∀ c,
        c ∈ getNeighborPages (p.getBlockAdjMap fourBlockConfig) b ↔
          c ∈ getNeighborPages twoBlockGraph b ∧ c ∈ twoBlockGraph) ∧
      ∀ calls : List SetterCall, (∀ call ∈ calls, call.Ranged) → ∀ call : SetterCall, call.Ranged →
        (p.setterCalls fourBlockConfig calls).AddsExactly fourBlockConfig call := by
  refine blockGraph_of_create 0 3 (fun b hb => ?_) (by decide)
  have hkeys : b ∈ twoBlockGraph.keys := hb
  have hlist : twoBlockGraph.keys = [5, 7] := rfl
  rw [hlist] at hkeys
  obtain rfl | rfl : b = 5 ∨ b = 7 := by simpa using hkeys
  · decide
  · decide

end IndexPage

end BwGraph
