import Mathlib.Data.List.GetD
import BwGraph.Common.PtvCodec

/-
  The index page (`io_index.h`, `io_index.cc`): a header of three words, the neighbour block, the
  block array and a bit matrix of the adjacency between the blocks. The members are kept next to
  the bytes, as the source does; the two spans are read off the bytes with the member counts, to
  which every function of the source resets them.

  `build_from_block_adjmap` writes the header before it sets the members, and ends with the page
  marked as parsed. `set_parent_page_no` and `self_parse` use offsets of 64-bit fields where the
  builder and `add_neighbor_page_no` use offsets of 32-bit ones.
-/

namespace BwGraph

open List

/-! ## Settings -/

/-- The bytes an index page of `blocks` blocks and `neighbors` neighbour pages needs. -/
def indexBytes (neighbors blocks : Nat) : Nat :=
  (3 + blocks + neighbors) * 4 + (blocks * blocks + 7) / 8

/-- The binary search of `calculate_bw_capacity`. -/
def capacitySearch (pageSize neighbors left right result : Nat) : Nat :=
  if left ≤ right then
    let mid := left + (right - left) / 2
    if indexBytes neighbors mid < pageSize then
      capacitySearch pageSize neighbors (mid + 1) right mid
    else if mid = 0 then result
    else capacitySearch pageSize neighbors left (mid - 1) result
  else result
termination_by right + 1 - left
decreasing_by all_goals omega

/-- `calculate_bw_capacity`. -/
def calculateBwCapacity (pageSize neighbors : Nat) : Nat :=
  if pageSize ≤ (3 + neighbors) * 4 then 0
  else
    let result := capacitySearch pageSize neighbors 0 pageSize 0
    if indexBytes neighbors result ≥ pageSize then 100 else result

variable {pageSize neighbors : Nat}

theorem capacitySearch_fits (left right result : Nat) (h : indexBytes neighbors result < pageSize) :
    indexBytes neighbors (capacitySearch pageSize neighbors left right result) < pageSize := by
  fun_induction capacitySearch pageSize neighbors left right result with
  | case1 left right result hle mid hmid ih => exact ih hmid
  | case2 left right result hle mid hmid hzero => exact h
  | case3 left right result hle mid hmid hzero ih => exact ih h
  | case4 left right result hle => exact h

/-- The capacity fits the page whenever the fixed part of the page does. -/
theorem calculateBwCapacity_fits (h : (3 + neighbors) * 4 < pageSize) :
    indexBytes neighbors (calculateBwCapacity pageSize neighbors) < pageSize := by
  have h0 : indexBytes neighbors 0 < pageSize := by
    unfold indexBytes
    omega
  have hfits := capacitySearch_fits 0 pageSize 0 h0
  rw [calculateBwCapacity, if_neg (by omega)]
  simp only [ge_iff_le, if_neg (Nat.not_le.2 hfits)]
  exact hfits

/-- The settings an index page reads; the capacity is one whose pages fit. -/
structure IndexConfig where
  pageSize : Nat
  maxBlockNeighbor : Nat
  maxBlocks : Nat
  defaultPageNo : PageNo
  fits : indexBytes maxBlockNeighbor maxBlocks ≤ pageSize
  room : 16 ≤ pageSize
  default_lt : defaultPageNo < 2 ^ 32

/-- Page number 0 is in range. -/
theorem zero_lt_pageNos : 0 < 2 ^ 32 := by decide

/-- The settings `load_yaml_config` leaves behind. -/
def IndexConfig.ofYaml (pageSize neighbors : Nat) (h : (3 + neighbors) * 4 < pageSize)
    (hroom : 16 ≤ pageSize) : IndexConfig :=
  ⟨pageSize, neighbors, calculateBwCapacity pageSize neighbors, 0,
    Nat.le_of_lt (calculateBwCapacity_fits h), hroom, by decide⟩

/-! ## Bytes -/

/-- A `uint64_t` in memory. -/
def longWrite (n : Nat) : List Nat := wordWrite n ++ wordWrite (n >>> 32)

/-- The `uint64_t` at the start of a buffer. -/
def longRead (buf : List Nat) : Nat := wordRead buf + wordRead (buf.drop 4) * 2 ^ 32

/-- A store of some bytes at an offset. -/
def putBytes (data : List Nat) (off : Nat) (bytes : List Nat) : List Nat :=
  data.take off ++ bytes ++ data.drop (off + bytes.length)

theorem length_wordWrite (n : Nat) : (wordWrite n).length = 4 := rfl

theorem length_longWrite (n : Nat) : (longWrite n).length = 8 := rfl

theorem longRead_longWrite {n : Nat} (hn : n < 2 ^ 64) (rest : List Nat) :
    longRead (longWrite n ++ rest) = n := by
  have hsplit : n = n % 2 ^ 32 + n / 2 ^ 32 * 2 ^ 32 := by omega
  have hlow : wordWrite n = wordWrite (n % 2 ^ 32) := by
    simp only [wordWrite, byte, Nat.shiftRight_eq_div_pow]
    congr 1
    · omega
    congr 1
    · omega
    congr 1
    · omega
    congr 1
    omega
  have hhigh : (longWrite n ++ rest).drop 4 = wordWrite (n >>> 32) ++ rest := rfl
  have h0 : wordRead (longWrite n ++ rest) = n % 2 ^ 32 := by
    rw [longWrite, hlow, append_assoc]
    exact wordRead_wordWrite (Nat.mod_lt _ (by decide)) _
  have h4 : wordRead ((longWrite n ++ rest).drop 4) = n / 2 ^ 32 := by
    rw [hhigh, Nat.shiftRight_eq_div_pow]
    refine wordRead_wordWrite ?_ _
    omega
  rw [longRead, h0, h4, ← hsplit]

theorem length_putBytes {data bytes : List Nat} {off : Nat}
    (h : off + bytes.length ≤ data.length) : (putBytes data off bytes).length = data.length := by
  simp only [putBytes, length_append, length_take, length_drop]
  omega

theorem length_wordReads (count : Nat) (buf : List Nat) : (wordReads count buf).length = count := by
  induction count generalizing buf with
  | zero => rfl
  | succ count ih => simp only [wordReads, length_cons, ih]

/-! ## The page -/

/-- `block_adj_map_t`. -/
abbrev BlockAdjMap := AList (fun _ : PageNo => List PageNo)

/-- `get_neighbor_pages`. -/
def getNeighborPages (graph : BlockAdjMap) (page : PageNo) : List PageNo :=
  (graph.lookup page).getD []

/-- `index_page_t`. -/
structure IndexPage where
  pageNo : PageNo
  isParsed : Bool
  numBlocks : Nat
  parentPageNo : Nat
  neighborPageCount : Nat
  data : List Nat
  deriving DecidableEq, Repr

namespace IndexPage

variable (cfg : IndexConfig)

/-- `metadata_size`. -/
def metadataSize : Nat := 3 * 4

/-- Where the block array starts. -/
def blocksOff : Nat := metadataSize + cfg.maxBlockNeighbor * 4

/-- Where `block_bitmap_ptr_` points. -/
def bitmapOff : Nat := blocksOff cfg + cfg.maxBlocks * 4

/-- `bitmap_size`. -/
def bitmapSize : Nat := (cfg.maxBlocks * cfg.maxBlocks + 7) / 8

/-- `get_blocks`. -/
def getBlocks (p : IndexPage) : List PageNo := wordReads p.numBlocks (p.data.drop (blocksOff cfg))

/-- `read_neighbor_block_clone`. -/
def readNeighborBlockClone (p : IndexPage) : List PageNo :=
  wordReads p.neighborPageCount (p.data.drop metadataSize)

/-- `set_bitmap_bit`. -/
def setBitmapBit (p : IndexPage) (fromIndex toIndex : Nat) : IndexPage :=
  if fromIndex ≥ cfg.maxBlocks ∨ toIndex ≥ cfg.maxBlocks then p
  else
    let bitIndex := fromIndex * cfg.maxBlocks + toIndex
    let at_ := bitmapOff cfg + bitIndex / 8
    { p with data := putBytes p.data at_ [p.data.getD at_ 0 ||| 1 <<< (bitIndex % 8)] }

/-- `get_bitmap_bit`. -/
def getBitmapBit (p : IndexPage) (fromIndex toIndex : Nat) : Bool :=
  if fromIndex ≥ cfg.maxBlocks ∨ toIndex ≥ cfg.maxBlocks then false
  else
    let bitIndex := fromIndex * cfg.maxBlocks + toIndex
    (p.data.getD (bitmapOff cfg + bitIndex / 8) 0).testBit (bitIndex % 8)

/-- `get_block_adj_map`. -/
def getBlockAdjMap (p : IndexPage) : BlockAdjMap :=
  let blocks := p.getBlocks cfg
  (List.range p.numBlocks).foldl (fun adj i =>
    let neighbors := ((List.range p.numBlocks).filter fun j => p.getBitmapBit cfg i j).map
      fun j => blocks.getD j 0
    adj.insert (blocks.getD i 0) neighbors) ∅

/-- `self_parse`: nothing on a page that is marked as parsed. -/
def selfParse (p : IndexPage) : IndexPage :=
  if p.isParsed then p
  else { p with
    numBlocks := wordRead p.data
    parentPageNo := longRead (p.data.drop 8)
    neighborPageCount := longRead (p.data.drop 16) }

/-- The object before the constructor's body runs; `num_blocks_` has no initialiser and holds
    `fresh`. -/
def raw (fresh : Nat) (pageNo : PageNo) : IndexPage :=
  ⟨pageNo, false, fresh, 0, 0, List.replicate cfg.pageSize 0⟩

/-- Steps 1 and 2 of `build_from_block_adjmap`: the header, an empty neighbour block, the blocks. -/
def writeBlocks (blocks : List PageNo) (p : IndexPage) : IndexPage :=
  let header := wordWrite p.numBlocks ++ wordWrite p.parentPageNo ++ wordWrite p.neighborPageCount
  let data := putBytes p.data 0 header
  let data := putBytes data metadataSize (List.replicate (cfg.maxBlockNeighbor * 4) 0)
  let data := putBytes data (blocksOff cfg) (blocks.flatMap wordWrite)
  let data := putBytes data (bitmapOff cfg) (List.replicate (bitmapSize cfg) 0)
  { p with data := data, numBlocks := blocks.length, neighborPageCount := 0 }

/-- Step 4 for one block: the bits of the adjacent blocks that are in the page. -/
def writeRow (blocks : List PageNo) (p : IndexPage) (row : PageNo × List PageNo) : IndexPage :=
  row.2.foldl (fun p adj =>
    if adj ∈ blocks then p.setBitmapBit cfg (blocks.idxOf row.1) (blocks.idxOf adj) else p) p

/-- `build_from_block_adjmap`. -/
def buildFromBlockAdjmap (ho : HashOrder) (graph : BlockAdjMap) (p : IndexPage) :
    Except String IndexPage :=
  if graph.keys.length > cfg.maxBlocks then
    .error "Block adjacency map exceeds index page capacity"
  else if bitmapOff cfg + bitmapSize cfg > cfg.pageSize then
    .error "Index page size exceeded while building block bitmap"
  else
    let blocks := ho.order graph.keys
    let rows := blocks.map fun b => (b, getNeighborPages graph b)
    .ok { rows.foldl (writeRow cfg blocks) (p.writeBlocks cfg blocks) with isParsed := true }

/-- `index_page_t(page_no, block_adj_map)`. -/
def create (ho : HashOrder) (fresh : Nat) (pageNo : PageNo) (graph : BlockAdjMap) :
    Except String IndexPage :=
  buildFromBlockAdjmap cfg ho graph (raw cfg fresh pageNo)

/-- `set_parent_page_no`: the member, and eight bytes at offset 8. -/
def setParentPageNo (p : IndexPage) (parent : Nat) : IndexPage :=
  { p with parentPageNo := parent, data := putBytes p.data 8 (longWrite parent) }

/-- `add_neighbor_page_no`. -/
def addNeighborPageNo (p : IndexPage) (pageNo : PageNo) : Bool × IndexPage :=
  if p.neighborPageCount ≥ cfg.maxBlockNeighbor then (false, p)
  else if pageNo ∈ p.readNeighborBlockClone then (false, p)
  else
    let count := p.neighborPageCount + 1
    let data := putBytes p.data (metadataSize + p.neighborPageCount * 4) (wordWrite pageNo)
    (true, { p with neighborPageCount := count, data := putBytes data 8 (wordWrite count) })

/-- `insert_block`. -/
def insertBlock (p : IndexPage) (blockNo : PageNo) : Bool × IndexPage :=
  let p := p.selfParse
  if p.numBlocks ≥ cfg.maxBlocks then (false, p)
  else if blockNo ∈ p.getBlocks cfg then (false, p)
  else
    let data := putBytes p.data (blocksOff cfg + p.numBlocks * 4) (wordWrite blockNo)
    (true, { p with
      numBlocks := p.numBlocks + 1
      data := putBytes data 0 (longWrite (p.numBlocks + 1)) })

/-- `insert_block_edge`. -/
def insertBlockEdge (p : IndexPage) (src dest : PageNo) : Bool × IndexPage :=
  let p := p.selfParse
  let blocks := p.getBlocks cfg
  if src ∉ blocks ∨ dest ∉ blocks then (false, p)
  else (true, p.setBitmapBit cfg (blocks.idxOf src) (blocks.idxOf dest))

/-! ## What every page keeps -/

/-- A page as every function leaves it: marked as parsed, with all of its bytes. -/
structure Formed (p : IndexPage) : Prop where
  parsed : p.isParsed = true
  length : p.data.length = cfg.pageSize

variable {cfg}

theorem bitmap_le (cfg : IndexConfig) : bitmapOff cfg + bitmapSize cfg ≤ cfg.pageSize := by
  have h := cfg.fits
  unfold indexBytes at h
  unfold bitmapOff bitmapSize blocksOff metadataSize
  omega

variable {p : IndexPage} {graph : BlockAdjMap} {pageNo : PageNo}

section

variable (h : p.data.length = cfg.pageSize)
include h

theorem length_setBitmapBit (i j : Nat) : (p.setBitmapBit cfg i j).data.length = cfg.pageSize := by
  unfold setBitmapBit
  split
  · exact h
  · rename_i hij
    have hi : i < cfg.maxBlocks := by omega
    have hbit : i * cfg.maxBlocks + j < cfg.maxBlocks * cfg.maxBlocks := by
      calc i * cfg.maxBlocks + j < i * cfg.maxBlocks + cfg.maxBlocks := by omega
        _ = (i + 1) * cfg.maxBlocks := (Nat.succ_mul _ _).symm
        _ ≤ cfg.maxBlocks * cfg.maxBlocks := Nat.mul_le_mul_right _ hi
    have hsize := bitmap_le cfg
    refine (length_putBytes ?_).trans h
    unfold bitmapSize at hsize
    simp only [length_cons, length_nil]
    omega

theorem length_writeRow (blocks : List PageNo) (row : PageNo × List PageNo) :
    (writeRow cfg blocks p row).data.length = cfg.pageSize := by
  unfold writeRow
  induction row.2 generalizing p with
  | nil => exact h
  | cons adj rest ih =>
    rw [foldl_cons]
    apply ih
    split
    · exact length_setBitmapBit h _ _
    · exact h

theorem length_writeRows (blocks : List PageNo) (rows : List (PageNo × List PageNo)) :
    (rows.foldl (writeRow cfg blocks) p).data.length = cfg.pageSize := by
  induction rows generalizing p with
  | nil => exact h
  | cons row rest ih => exact ih (length_writeRow h blocks row)

/-- The header and the cleared neighbour pages are within the page. -/
theorem length_clearNeighbors : (putBytes (putBytes p.data 0 (wordWrite p.numBlocks ++
    wordWrite p.parentPageNo ++ wordWrite p.neighborPageCount)) metadataSize
    (replicate (cfg.maxBlockNeighbor * 4) 0)).length = cfg.pageSize := by
  have hsize := bitmap_le cfg
  have hroom := cfg.room
  have hoff : bitmapOff cfg = 12 + cfg.maxBlockNeighbor * 4 + cfg.maxBlocks * 4 := rfl
  have h1 : (putBytes p.data 0 (wordWrite p.numBlocks ++ wordWrite p.parentPageNo ++
      wordWrite p.neighborPageCount)).length = cfg.pageSize := by
    refine (length_putBytes ?_).trans h
    simp only [length_append, length_wordWrite]
    omega
  refine (length_putBytes ?_).trans h1
  rw [h1, length_replicate, metadataSize]
  omega

theorem length_writeBlocks {blocks : List PageNo} (hb : blocks.length ≤ cfg.maxBlocks) :
    (p.writeBlocks cfg blocks).data.length = cfg.pageSize := by
  have hsize := bitmap_le cfg
  have hoff : bitmapOff cfg = blocksOff cfg + cfg.maxBlocks * 4 := rfl
  have h3 : blocksOff cfg + (blocks.flatMap wordWrite).length ≤ cfg.pageSize := by
    rw [length_flatMap_wordWrite]
    omega
  have h4 : bitmapOff cfg + (replicate (bitmapSize cfg) 0).length ≤ cfg.pageSize := by
    rw [length_replicate]
    exact hsize
  have l2 := length_clearNeighbors h
  have l3 := (length_putBytes (Nat.le_trans h3 (Nat.le_of_eq l2.symm))).trans l2
  exact (length_putBytes (Nat.le_trans h4 (Nat.le_of_eq l3.symm))).trans l3

end

variable {ho : HashOrder} {fresh : Nat}

/-- What a constructed page is. -/
theorem create_ok (h : create cfg ho fresh pageNo graph = .ok p) :
    let blocks := ho.order graph.keys
    blocks.length ≤ cfg.maxBlocks ∧
      p = { (blocks.map fun b => (b, getNeighborPages graph b)).foldl (writeRow cfg blocks)
        ((raw cfg fresh pageNo).writeBlocks cfg blocks) with isParsed := true } := by
  unfold create buildFromBlockAdjmap at h
  split_ifs at h with hcap
  injection h with h
  refine ⟨?_, h.symm⟩
  rw [(ho.perm _).length_eq]
  omega

theorem create_formed (h : create cfg ho fresh pageNo graph = .ok p) : p.Formed cfg := by
  obtain ⟨hlen, rfl⟩ := create_ok h
  exact ⟨rfl, length_writeRows (length_writeBlocks length_replicate hlen) _ _⟩

section

variable (h : p.Formed cfg)
include h

theorem Formed.setParentPageNo (parent : Nat) : (p.setParentPageNo parent).Formed cfg := by
  refine ⟨h.parsed, (length_putBytes ?_).trans h.length⟩
  rw [length_longWrite, h.length]
  exact cfg.room

theorem Formed.addNeighborPageNo (pageNo : PageNo) :
    (p.addNeighborPageNo cfg pageNo).2.Formed cfg := by
  unfold IndexPage.addNeighborPageNo
  split
  · exact h
  · rename_i hcount
    split
    · exact h
    · have hsize := bitmap_le cfg
      have hroom := cfg.room
      have hmeta : bitmapOff cfg = 12 + cfg.maxBlockNeighbor * 4 + cfg.maxBlocks * 4 := rfl
      have h1 : (putBytes p.data (metadataSize + p.neighborPageCount * 4)
          (wordWrite pageNo)).length = cfg.pageSize := by
        refine (length_putBytes ?_).trans h.length
        rw [h.length, length_wordWrite, metadataSize]
        omega
      refine ⟨h.parsed, (length_putBytes ?_).trans h1⟩
      rw [h1, length_wordWrite]
      omega

theorem Formed.selfParse : p.selfParse = p := by
  rw [IndexPage.selfParse, h.parsed, if_pos rfl]

theorem Formed.insertBlock (blockNo : PageNo) : (p.insertBlock cfg blockNo).2.Formed cfg := by
  unfold IndexPage.insertBlock
  rw [h.selfParse]
  dsimp only
  split
  · exact h
  · rename_i hcount
    split
    · exact h
    · have hsize := bitmap_le cfg
      have hroom := cfg.room
      have hoff : bitmapOff cfg = blocksOff cfg + cfg.maxBlocks * 4 := rfl
      have h1 : (putBytes p.data (blocksOff cfg + p.numBlocks * 4)
          (wordWrite blockNo)).length = cfg.pageSize := by
        refine (length_putBytes ?_).trans h.length
        rw [h.length, length_wordWrite]
        omega
      refine ⟨h.parsed, (length_putBytes ?_).trans h1⟩
      rw [h1, length_longWrite]
      omega

theorem Formed.insertBlockEdge (src dest : PageNo) :
    (p.insertBlockEdge cfg src dest).2.Formed cfg := by
  unfold IndexPage.insertBlockEdge
  rw [h.selfParse]
  dsimp only
  split
  · exact h
  · refine ⟨?_, length_setBitmapBit h.length _ _⟩
    unfold setBitmapBit
    split
    · exact h.parsed
    · exact h.parsed

end

/-! ## The block array -/

/-- The blocks stand in the block array. -/
def BlocksAt (cfg : IndexConfig) (data : List Nat) (blocks : List PageNo) : Prop :=
  ∃ front rest, data = front ++ (blocks.flatMap wordWrite ++ rest) ∧ front.length = blocksOff cfg

variable {off : Nat}

theorem putBytes_append_left {front bytes : List Nat} (h : off + bytes.length ≤ front.length)
    (rest : List Nat) : putBytes (front ++ rest) off bytes = putBytes front off bytes ++ rest := by
  have hoff : off ≤ front.length := by omega
  unfold putBytes
  rw [take_append_of_le_length hoff, drop_append_of_le_length h, ← append_assoc]

theorem putBytes_append_right {front bytes : List Nat} (h : front.length ≤ off) (rest : List Nat) :
    putBytes (front ++ rest) off bytes = front ++ putBytes rest (off - front.length) bytes := by
  have hsub : off + bytes.length - front.length = off - front.length + bytes.length := by omega
  unfold putBytes
  rw [take_append, drop_append, take_of_length_le h,
    drop_of_length_le (by omega : front.length ≤ off + bytes.length), nil_append, hsub]
  simp only [append_assoc]

section

variable {data bytes : List Nat} {blocks : List PageNo} (h : BlocksAt cfg data blocks)
include h

/-- A store in front of the array leaves the blocks alone. -/
theorem BlocksAt.before (hoff : off + bytes.length ≤ blocksOff cfg) :
    BlocksAt cfg (putBytes data off bytes) blocks := by
  obtain ⟨front, rest, rfl, hlen⟩ := h
  rw [← hlen] at hoff
  exact ⟨_, rest, putBytes_append_left hoff _, (length_putBytes hoff).trans hlen⟩

/-- So does one behind them. -/
theorem BlocksAt.behind (hoff : blocksOff cfg + blocks.length * 4 ≤ off) :
    BlocksAt cfg (putBytes data off bytes) blocks := by
  obtain ⟨front, rest, rfl, hlen⟩ := h
  have hwords := length_flatMap_wordWrite blocks
  refine ⟨front, putBytes rest (off - front.length - (blocks.flatMap wordWrite).length) bytes,
    ?_, hlen⟩
  rw [putBytes_append_right (by omega), putBytes_append_right (by omega)]

end

/-- A page that lists the blocks, whatever its header says. -/
structure Lists (cfg : IndexConfig) (p : IndexPage) (blocks : List PageNo) : Prop where
  blocksAt : BlocksAt cfg p.data blocks
  numBlocks : p.numBlocks = blocks.length

theorem Lists.getBlocks {blocks : List PageNo} (h : p.Lists cfg blocks)
    (hlt : ∀ b ∈ blocks, b < 2 ^ 32) : p.getBlocks cfg = blocks := by
  obtain ⟨front, rest, hdata, hlen⟩ := h.blocksAt
  rw [IndexPage.getBlocks, hdata, h.numBlocks, ← hlen, drop_left]
  exact wordReads_append blocks hlt rest

theorem Lists.setBitmapBit {blocks : List PageNo} (h : p.Lists cfg blocks)
    (hb : blocks.length ≤ cfg.maxBlocks) (i j : Nat) :
    (p.setBitmapBit cfg i j).Lists cfg blocks := by
  unfold IndexPage.setBitmapBit
  split
  · exact h
  · refine ⟨h.blocksAt.behind ?_, h.numBlocks⟩
    have hoff : bitmapOff cfg = blocksOff cfg + cfg.maxBlocks * 4 := rfl
    omega

theorem neighborPageCount_setBitmapBit (p : IndexPage) (i j : Nat) :
    (p.setBitmapBit cfg i j).neighborPageCount = p.neighborPageCount := by
  unfold IndexPage.setBitmapBit
  split <;> rfl

section

variable {blocks : List PageNo} (h : p.Lists cfg blocks) (hb : blocks.length ≤ cfg.maxBlocks)
include h hb

theorem Lists.writeRow (row : PageNo × List PageNo) :
    (writeRow cfg blocks p row).Lists cfg blocks ∧
      (writeRow cfg blocks p row).neighborPageCount = p.neighborPageCount := by
  unfold IndexPage.writeRow
  induction row.2 generalizing p with
  | nil => exact ⟨h, rfl⟩
  | cons adj rest ih =>
    rw [foldl_cons]
    split
    · obtain ⟨h1, h2⟩ := ih (h.setBitmapBit hb (blocks.idxOf row.1) (blocks.idxOf adj))
      exact ⟨h1, h2.trans (neighborPageCount_setBitmapBit _ _ _)⟩
    · exact ih h

theorem Lists.writeRows (rows : List (PageNo × List PageNo)) :
    (rows.foldl (IndexPage.writeRow cfg blocks) p).Lists cfg blocks ∧
      (rows.foldl (IndexPage.writeRow cfg blocks) p).neighborPageCount = p.neighborPageCount := by
  induction rows generalizing p with
  | nil => exact ⟨h, rfl⟩
  | cons row rest ih =>
    obtain ⟨h1, h2⟩ := h.writeRow hb row
    obtain ⟨h3, h4⟩ := ih h1
    exact ⟨h3, h4.trans h2⟩

end

theorem lists_writeBlocks (h : p.data.length = cfg.pageSize) {blocks : List PageNo}
    (hb : blocks.length ≤ cfg.maxBlocks) : (p.writeBlocks cfg blocks).Lists cfg blocks := by
  have hsize := bitmap_le cfg
  have hroom := cfg.room
  have hoff : bitmapOff cfg = blocksOff cfg + cfg.maxBlocks * 4 := rfl
  have hmeta : blocksOff cfg = 12 + cfg.maxBlockNeighbor * 4 := rfl
  have h2 := length_clearNeighbors h
  refine ⟨BlocksAt.behind ?_ ?_, rfl⟩
  · refine ⟨_, _, append_assoc _ _ _, ?_⟩
    rw [length_take, h2]
    omega
  · omega

/-- The constructor succeeds exactly when the blocks fit. -/
theorem create_isOk_iff :
    (∃ p, create cfg ho fresh pageNo graph = .ok p) ↔ graph.keys.length ≤ cfg.maxBlocks := by
  unfold create buildFromBlockAdjmap
  rw [if_neg (Nat.not_lt.2 (bitmap_le cfg))]
  constructor
  · rintro ⟨p, h⟩
    split at h
    · cases h
    · exact Nat.not_lt.1 ‹_›
  · intro h
    rw [if_neg (Nat.not_lt.2 h)]
    exact ⟨_, rfl⟩

/-- A constructed page lists the keys of the map and has no neighbour page. -/
theorem create_lists (h : create cfg ho fresh pageNo graph = .ok p) :
    p.Lists cfg (ho.order graph.keys) ∧ p.neighborPageCount = 0 := by
  obtain ⟨hlen, rfl⟩ := create_ok h
  have hraw : (raw cfg fresh pageNo).data.length = cfg.pageSize := length_replicate
  obtain ⟨h1, h2⟩ := (lists_writeBlocks hraw hlen).writeRows hlen
    ((ho.order graph.keys).map fun b => (b, getNeighborPages graph b))
  exact ⟨⟨h1.blocksAt, h1.numBlocks⟩, h2⟩

/-- With a neighbour block, the parent number is stored in front of the blocks. -/
theorem Lists.setParentPageNo {blocks : List PageNo} (h : p.Lists cfg blocks)
    (hn : 0 < cfg.maxBlockNeighbor) (parent : Nat) :
    (p.setParentPageNo parent).Lists cfg blocks := by
  refine ⟨h.blocksAt.before ?_, h.numBlocks⟩
  rw [length_longWrite, blocksOff, metadataSize]
  omega

theorem Lists.addNeighborPageNo {blocks : List PageNo} (h : p.Lists cfg blocks) (pageNo : PageNo) :
    (p.addNeighborPageNo cfg pageNo).2.Lists cfg blocks := by
  unfold IndexPage.addNeighborPageNo
  split
  · exact h
  · split
    · exact h
    · refine ⟨BlocksAt.before (h.blocksAt.before ?_) ?_, h.numBlocks⟩
      · rw [length_wordWrite, blocksOff, metadataSize]
        omega
      · rw [length_wordWrite, blocksOff, metadataSize]
        omega

end IndexPage

end BwGraph
