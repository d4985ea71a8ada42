import BwGraph.Lib.Run
import BwGraph.Lib.Bytes
import BwGraph.Io.PageData
import BwGraph.Io.Index
import BwGraph.Index.VertexIndex

/-
  The vertex index file (`save_to_file` and `load_from_file`, `vertex_index.cc`): a header of 32
  bytes, a bitmap of the deleted vertices, then 18 bytes per vertex (10 in version 1), plain or as
  one zlib stream behind its length. Both sides go through the data in chunks of their own size.

  The vertices survive the round trip. A load reads and checks the whole file before it touches
  the index, but then clears the index before it has the memory for the new vectors: an exception
  of the rebuild leaves it cleared or half built. So a failed load leaves every index as it was
  exactly when the memory for the rebuild is there (`saveToFile_loadFromFile_iff`).

  zlib is a parameter. Latches and padding are not written and are reset by a load.
-/

namespace BwGraph

open Nat

open Except (bind_eq_ok)
open List

open EStateM (bind_eq_error bind_eq_ok)

/-! ## The index in memory -/

/-- `v_item_t`, with the fields of its current version; `isDelete` is any byte. -/
structure VertexItem where
  pageNo : UInt32
  offset : UInt16
  vertexType : UInt32
  isDelete : UInt8
  deriving DecidableEq

/-- The default constructor. -/
instance : Inhabited VertexItem := ⟨⟨0, 0, 0, 0⟩⟩

/-- `deleted`. -/
def VertexItem.deleted (item : VertexItem) : Bool := item.isDelete != 0

/-- `delta_head_t`. -/
structure DeltaHead where
  pageNo : UInt32
  recordIdx : UInt32
  deriving DecidableEq

/-- `delta_head_t::invalid`. -/
instance : Inhabited DeltaHead := ⟨⟨0xFFFFFFFF, 0xFFFFFFFF⟩⟩

/-- `max_size` of a vector. -/
def vectorMaxSize (elemSize : Nat) : Nat := (2 ^ 63 - 1) / elemSize

/-- `sizeof(v_item_t)`. -/
def vItemSize : Nat := 24

/-- The two vectors of `vertex_index_t`. -/
structure VertexTable where
  items : List VertexItem
  deltaHeads : List DeltaHead
  items_le : items.length ≤ vectorMaxSize vItemSize

namespace VertexTable

/-- A store into `items[i]`. -/
def modifyItem (t : VertexTable) (i : Nat) (f : VertexItem → VertexItem) : VertexTable :=
  ⟨t.items.modify i f, t.deltaHeads, by rw [List.length_modify]; exact t.items_le⟩

/-- The head that a save writes for a vertex. -/
def head (t : VertexTable) (i : Nat) : DeltaHead := t.deltaHeads.getD i default

end VertexTable

/-! ## Memory and zlib -/

/-- The places that allocate. -/
inductive AllocSite where
  | bitmap
  | data
  | compressed
  /-- `items.resize`, with the versions of the default items. -/
  | items
  | deltaHeads
  /-- The version of vertex `i`. -/
  | version (i : Nat)

/-- Whether an allocation of so many elements finds the memory. -/
structure Memory where
  fits : AllocSite → Nat → Bool

/-- The ways a call can end without a return value. -/
inductive NoReturn where
  | lengthError
  | badAlloc
  /-- The loops over the chunks do not end with an empty buffer. -/
  | endlessLoop
  deriving DecidableEq

/-- The constructor of a vector with `n` elements. -/
def Memory.vector (mem : Memory) (site : AllocSite) (elemSize n : Nat) : Except NoReturn Unit :=
  if n > vectorMaxSize elemSize then .error .lengthError
  else if mem.fits site n then .ok () else .error .badAlloc

/-- What the code uses of zlib: `compress2` with the default level into a buffer of
`compressBound`, and `uncompress` into a buffer of the given size. -/
structure Zlib where
  compressBound : Nat → Nat
  compress : List Nat → Option (List Nat)
  uncompress : Nat → List Nat → Option (List Nat)

/-- `ofstream`: what it has received, and `good()`. -/
structure OutStream where
  bytes : List Nat
  good : Bool

/-- `ofs.write` on a disk with room for so many bytes. -/
def OutStream.write (room : Nat) (ofs : OutStream) (data : List Nat) : OutStream :=
  if ofs.good && decide (ofs.bytes.length + data.length ≤ room) then
    { ofs with bytes := ofs.bytes ++ data }
  else { ofs with good := false }

/-- "VERTEX_I". -/
def vertexFileMagic : Nat := 0x5645525445585F49

/-- The deletion bitmap. -/
def deletionBitmap (items : List VertexItem) : List Nat :=
  (List.range items.length).foldl (fun bitmap i =>
      if (items.getD i default).deleted then bitmap.modify (i / 8) (· ||| 1 <<< (i % 8))
      else bitmap)
    (List.replicate ((items.length + 7) / 8) 0)

/-- The 18 bytes of a vertex. -/
def packVItem (item : VertexItem) (head : DeltaHead) : List Nat :=
  wordWrite item.pageNo.toNat ++ (wordWrite item.vertexType.toNat ++
    (halfWrite item.offset.toNat ++ (wordWrite head.pageNo.toNat ++
      wordWrite head.recordIdx.toNat)))

/-- `data_buffer`. -/
def VertexTable.packed (t : VertexTable) : List Nat :=
  (List.range t.items.length).flatMap fun i => packVItem (t.items.getD i default) (t.head i)

/-- `read_buffered`: the data and the rest of the file, `none` after a short read. -/
def readBuffered (bufferSize : Nat) :
    Nat → Nat → List Nat → Except NoReturn (Option (List Nat × List Nat))
  | _, 0, rest => .ok (some ([], rest))
  | 0, _ + 1, _ => .error .endlessLoop
  | fuel + 1, size + 1, rest =>
    let toRead := min bufferSize (size + 1)
    if rest.length < toRead then .ok none
    else do
      let more ← readBuffered bufferSize fuel (size + 1 - toRead) (rest.drop toRead)
      return more.map fun r => (rest.take toRead ++ r.1, r.2)

/-- `core_item_size`. -/
def coreItemSize (version : Nat) : Nat := if version ≥ 2 then 18 else 10

/-- Step 3 of a load: `data_buffer`, or `none` when the load returns false. -/
def readCoreData (zlib : Option Zlib) (mem : Memory) (bufferSize compression totalDataSize : Nat)
    (rest : List Nat) : Except NoReturn (Option (List Nat)) :=
  match compression, zlib with
  | 0, _ => do
    let data ← readBuffered bufferSize totalDataSize totalDataSize rest
    return data.map Prod.fst
  | 1, some z =>
    if rest.length < 8 then .ok none
    else do
      let compressedSize := longRead rest
      mem.vector .compressed 1 compressedSize
      let compressed ← readBuffered bufferSize compressedSize compressedSize (rest.drop 8)
      return compressed.bind fun r =>
        (z.uncompress totalDataSize r.1).filter fun data => data.length = totalDataSize
  | _, _ => .ok none

/-- What a load has read before it touches the index. -/
structure LoadedFile where
  version : Nat
  vertexCount : Nat
  deletionBitmap : List Nat
  data : List Nat

/-- Steps 1 to 3 of a load; sizes are 64-bit. -/
def readVertexFile (zlib : Option Zlib) (mem : Memory) (bufferSize : Nat) (file : List Nat) :
    Except NoReturn (Option LoadedFile) := do
  if file.length < 32 ∨ longRead file ≠ vertexFileMagic then return none
  let version := longRead (file.drop 8)
  let vertexCount := longRead (file.drop 16)
  if vertexCount = 0 then return some ⟨version, 0, [], []⟩
  let bitmapBytes := (vertexCount + 7) % 2 ^ 64 / 8
  mem.vector .bitmap 1 bitmapBytes
  let rest := file.drop 32
  if rest.length < bitmapBytes then return none
  let totalDataSize := vertexCount * coreItemSize version % 2 ^ 64
  mem.vector .data 1 totalDataSize
  let data ← readCoreData zlib mem bufferSize (file.getD 24 0) totalDataSize
    (rest.drop bitmapBytes)
  return data.map fun data => ⟨version, vertexCount, rest.take bitmapBytes, data⟩

/-- `items.clear()`. -/
def clearItems : EStateM NoReturn VertexTable Unit :=
  modify fun t => ⟨[], t.deltaHeads, Nat.zero_le _⟩

/-- `items.resize(n)` of the cleared vector. -/
def resizeItems (mem : Memory) (n : Nat) : EStateM NoReturn VertexTable Unit := fun t =>
  if h : n ≤ vectorMaxSize vItemSize then
    if mem.fits .items n then
      .ok () ⟨List.replicate n default, t.deltaHeads, by rw [List.length_replicate]; exact h⟩
    else .error .badAlloc t
  else .error .lengthError t

/-- `delta_heads_.clear()`. -/
def clearDeltaHeads : EStateM NoReturn VertexTable Unit :=
  modify fun t => { t with deltaHeads := [] }

/-- `delta_heads_.resize(n)` of the cleared vector. -/
def resizeDeltaHeads (mem : Memory) (n : Nat) : EStateM NoReturn VertexTable Unit := fun t =>
  match mem.vector .deltaHeads 8 n with
  | .ok () => .ok () { t with deltaHeads := List.replicate n default }
  | .error e => .error e t

/-- One round of the rebuilding loop; `buf` starts at `read_ptr`. -/
def restoreVertex (mem : Memory) (version : Nat) (bitmap : List Nat) (i : Nat) (buf : List Nat) :
    EStateM NoReturn VertexTable Unit := do
  modify fun t => t.modifyItem i fun item =>
    { item with vertexType := UInt32.ofNat (wordRead (buf.drop 4)) }
  if !mem.fits (.version i) 1 then throw .badAlloc
  modify fun t => t.modifyItem i fun item =>
    { item with
      pageNo := UInt32.ofNat (wordRead buf)
      offset := UInt16.ofNat (halfRead (buf.drop 8)) }
  if version ≥ 2 then
    let head := ⟨UInt32.ofNat (wordRead (buf.drop 10)), UInt32.ofNat (wordRead (buf.drop 14))⟩
    modify fun t => { t with deltaHeads := t.deltaHeads.set i head }
  modify fun t => t.modifyItem i fun item =>
    { item with isDelete := if (bitmap.getD (i / 8) 0).testBit (i % 8) then 1 else 0 }

/-- The rebuilding loop over the vertices from `i` on. -/
def restoreVertices (mem : Memory) (version : Nat) (bitmap : List Nat) :
    Nat → Nat → List Nat → EStateM NoReturn VertexTable Unit
  | 0, _, _ => pure ()
  | n + 1, i, buf => do
    restoreVertex mem version bitmap i buf
    restoreVertices mem version bitmap n (i + 1) (buf.drop (coreItemSize version))

/-- Step 4 of a load. -/
def rebuild (mem : Memory) (f : LoadedFile) : EStateM NoReturn VertexTable Unit := do
  clearItems
  resizeItems mem f.vertexCount
  clearDeltaHeads
  resizeDeltaHeads mem f.vertexCount
  restoreVertices mem f.version f.deletionBitmap f.vertexCount 0 f.data

/-- `load_from_file` of a file that can be opened; the stream is good after reads that were not
short. -/
def loadFromFile (zlib : Option Zlib) (mem : Memory) (bufferSize : Nat) (file : List Nat) :
    EStateM NoReturn VertexTable Bool :=
  match readVertexFile zlib mem bufferSize file with
  | .error e => throw e
  | .ok none => pure false
  | .ok (some f) => do
    if f.vertexCount = 0 then clearItems else rebuild mem f
    return true

/-! ## Chunks -/

theorem readBuffered_eq {bufferSize : Nat} (hb : 1 ≤ bufferSize) (fuel : Nat) :
    ∀ (size : Nat) (rest : List Nat), size ≤ fuel → readBuffered bufferSize fuel size rest =
      .ok (if size ≤ rest.length then some (rest.take size, rest.drop size) else none) := by
  induction fuel with
  | zero =>
    intro size rest hsize
    obtain rfl := Nat.le_zero.1 hsize
    simp [readBuffered]
  | succ fuel ih =>
    intro size rest hsize
    cases size with
    | zero => simp [readBuffered]
    | succ size =>
      simp only [readBuffered]
      have hread : 1 ≤ min bufferSize (size + 1) := Nat.le_min.2 ⟨hb, succ_pos _⟩
      have hle : min bufferSize (size + 1) ≤ size + 1 := Nat.min_le_right _ _
      generalize min bufferSize (size + 1) = toRead at hread hle ⊢
      by_cases hshort : rest.length < toRead
      · rw [if_pos hshort, if_neg (by omega)]
      · rw [if_neg hshort, ih _ _ (by omega)]
        by_cases hall : size + 1 ≤ rest.length
        · have hmore : size + 1 - toRead ≤ (rest.drop toRead).length := by
            rw [length_drop]
            omega
          have hsplit : size + 1 = toRead + (size + 1 - toRead) := by omega
          rw [if_pos hall, if_pos hmore]
          simp only [bind, Except.bind, pure, Except.pure, Option.map_some]
          rw [drop_drop, ← hsplit, ← take_add, ← hsplit]
        · have hmore : ¬ size + 1 - toRead ≤ (rest.drop toRead).length := by
            rw [length_drop]
            omega
          rw [if_neg hall, if_neg hmore]
          rfl

namespace OutStream

variable {room : Nat} {ofs : OutStream}

variable {data : List Nat}

end OutStream

theorem Memory.vector_eq_ok {mem : Memory} {site : AllocSite} {elemSize n : Nat} :
    mem.vector site elemSize n = .ok () ↔
      n ≤ vectorMaxSize elemSize ∧ mem.fits site n = true := by
  unfold vector
  split_ifs with hmax hfits
  · exact iff_of_false (fun h => by cases h) fun h => Nat.not_lt.2 h.1 hmax
  · exact iff_of_true rfl ⟨Nat.not_lt.1 hmax, hfits⟩
  · exact iff_of_false (fun h => by cases h) fun h => hfits h.2

variable (t : VertexTable)

/-- `total_data_size` and the vertex count are far below the size of a vector of bytes. -/
theorem VertexTable.length_le : t.items.length * 18 ≤ 18 * ((2 ^ 63 - 1) / 24) := by
  have h : t.items.length ≤ (2 ^ 63 - 1) / 24 := t.items_le
  omega

variable {t : VertexTable} {payload : List Nat} {compression : Nat}

variable {useCompression : Bool} {compressor : Option Zlib} {file : List Nat} {i : Nat}

variable {zlib : Option Zlib}

variable (items : List VertexItem)

/-- The item that a load makes of the bytes of a vertex. -/
def restoredItem (bitmap : List Nat) (i : Nat) (buf : List Nat) : VertexItem :=
  ⟨UInt32.ofNat (wordRead buf), UInt16.ofNat (halfRead (buf.drop 8)),
    UInt32.ofNat (wordRead (buf.drop 4)),
    if (bitmap.getD (i / 8) 0).testBit (i % 8) then 1 else 0⟩

/-- The delta head that a load makes of the bytes of a vertex. -/
def restoredHead (buf : List Nat) : DeltaHead :=
  ⟨UInt32.ofNat (wordRead (buf.drop 10)), UInt32.ofNat (wordRead (buf.drop 14))⟩

theorem modify_const {α : Type} {l : List α} {f : α → α} {a : α} (h : ∀ x, f x = a) :
    l.modify i f = l.set i a := by
  refine ext_getElem? fun j => ?_
  by_cases hij : i = j
  · subst hij
    rw [getElem?_modify_eq, getElem?_set_self']
    cases l[i]? with
    | none => rfl
    | some x => exact congrArg some (h x)
  · rw [getElem?_modify_ne _ _ hij, getElem?_set_ne hij]

theorem restoreVertex_ok {mem : Memory} (hfits : mem.fits (.version i) 1 = true) (version : Nat)
    (bitmap buf : List Nat) (t : VertexTable) :
    ∃ t', restoreVertex mem version bitmap i buf t = .ok () t' ∧
      t'.items = t.items.set i (restoredItem bitmap i buf) ∧
      t'.deltaHeads = if version ≥ 2 then t.deltaHeads.set i (restoredHead buf)
        else t.deltaHeads := by
  unfold restoreVertex
  simp only [hfits, Bool.not_true, Bool.false_eq_true, if_false]
  by_cases hv : version ≥ 2
  · simp only [if_pos hv]
    refine ⟨_, rfl, ?_, rfl⟩
    show ((t.items.modify i _).modify i _).modify i _ = _
    rw [modify_modify_eq, modify_modify_eq]
    exact modify_const fun x => rfl
  · simp only [if_neg hv]
    refine ⟨_, rfl, ?_, rfl⟩
    show ((t.items.modify i _).modify i _).modify i _ = _
    rw [modify_modify_eq, modify_modify_eq]
    exact modify_const fun x => rfl

section

variable {mem : Memory} (version : Nat) (bitmap : List Nat) (n : Nat)

/-- The loop over `n` vertices from `i` on. -/
theorem restoreVertices_ok :
    ∀ (i : Nat) (buf : List Nat) (t : VertexTable), i + n ≤ t.items.length →
      i + n ≤ t.deltaHeads.length → (∀ j < n, mem.fits (.version (i + j)) 1 = true) →
      ∃ t', restoreVertices mem version bitmap n i buf t = .ok () t' ∧
        t'.items.length = t.items.length ∧ t'.deltaHeads.length = t.deltaHeads.length ∧
        (∀ j < i, t'.items[j]? = t.items[j]? ∧ t'.deltaHeads[j]? = t.deltaHeads[j]?) ∧
        ∀ j < n,
          t'.items[i + j]? = some (restoredItem bitmap (i + j)
            (buf.drop (j * coreItemSize version))) ∧
          (version ≥ 2 → t'.deltaHeads[i + j]? =
            some (restoredHead (buf.drop (j * coreItemSize version)))) := by
  induction n with
  | zero => exact fun i buf t _ _ _ => ⟨t, rfl, rfl, rfl, fun _ _ => ⟨rfl, rfl⟩, nofun⟩
  | succ n ih =>
    intro i buf t hitems hheads hfits
    have hfirst : mem.fits (.version i) 1 = true := hfits 0 (succ_pos n)
    obtain ⟨t1, hstep, hi, hh⟩ := restoreVertex_ok hfirst version bitmap buf t
    have hilen : t1.items.length = t.items.length := by rw [hi, length_set]
    have hhlen : t1.deltaHeads.length = t.deltaHeads.length := by
      rw [hh]
      split_ifs
      · exact length_set
      · rfl
    have hfits' : ∀ j < n, mem.fits (.version (i + 1 + j)) 1 = true := by
      intro j hj
      have := hfits (j + 1) (succ_lt_succ hj)
      rwa [Nat.add_assoc, Nat.add_comm 1]
    obtain ⟨t', hrun, hilen', hhlen', hbefore, hafter⟩ := ih (i + 1)
      (buf.drop (coreItemSize version)) t1 (by omega) (by omega) hfits'
    have hne : ∀ j < i, t1.items[j]? = t.items[j]? ∧ t1.deltaHeads[j]? = t.deltaHeads[j]? := by
      intro j hj
      have hij : i ≠ j := Nat.ne_of_gt hj
      rw [hi, hh, getElem?_set_ne hij]
      split_ifs
      · exact ⟨rfl, getElem?_set_ne hij⟩
      · exact ⟨rfl, rfl⟩
    refine ⟨t', bind_eq_ok.2 ⟨(), t1, hstep, hrun⟩, hilen'.trans hilen,
      hhlen'.trans hhlen, fun j hj => ?_, fun j hj => ?_⟩
    · obtain ⟨h1, h2⟩ := hbefore j (lt_succ_of_lt hj)
      exact ⟨h1.trans (hne j hj).1, h2.trans (hne j hj).2⟩
    · cases j with
      | zero =>
        obtain ⟨h1, h2⟩ := hbefore i (lt_succ_self i)
        rw [Nat.add_zero, Nat.zero_mul, drop_zero]
        refine ⟨?_, fun hv => ?_⟩
        · rw [h1, hi, getElem?_set_self (by omega)]
        · rw [h2, hh, if_pos hv, getElem?_set_self (by omega)]
      | succ j =>
        have hadd : i + (j + 1) = i + 1 + j := by omega
        have hdrop : (buf.drop (coreItemSize version)).drop (j * coreItemSize version) =
            buf.drop ((j + 1) * coreItemSize version) := by
          rw [drop_drop, succ_mul, Nat.add_comm]
        rw [hadd, ← hdrop]
        exact hafter j (lt_of_succ_lt_succ hj)

end

/-- The memory for the rebuild of an index with `n` vertices. -/
structure RebuildFits (mem : Memory) (n : Nat) : Prop where
  items_le : n ≤ vectorMaxSize vItemSize
  items : mem.fits .items n = true
  deltaHeads : mem.fits .deltaHeads n = true
  versions : ∀ i < n, mem.fits (.version i) 1 = true

theorem vectorMaxSize_le {n : Nat} (h : n ≤ vectorMaxSize vItemSize) : n ≤ vectorMaxSize 8 := by
  have h : n ≤ (2 ^ 63 - 1) / 24 := h
  show n ≤ (2 ^ 63 - 1) / 8
  omega

variable {f : LoadedFile}

/-- With the memory the rebuild gives one index, whatever was there. -/
theorem rebuild_ok {mem : Memory} (h : RebuildFits mem f.vertexCount) :
    ∃ t', (∀ t, rebuild mem f t = .ok () t') ∧ t'.items.length = f.vertexCount ∧
      t'.deltaHeads.length = f.vertexCount ∧ ∀ j < f.vertexCount,
        t'.items[j]? = some (restoredItem f.deletionBitmap j
          (f.data.drop (j * coreItemSize f.version))) ∧
        (f.version ≥ 2 →
          t'.deltaHeads[j]? = some (restoredHead (f.data.drop (j * coreItemSize f.version)))) := by
  have hresized : (List.replicate f.vertexCount (default : VertexItem)).length ≤
      vectorMaxSize vItemSize := by
    rw [length_replicate]
    exact h.items_le
  have hheads : mem.vector .deltaHeads 8 f.vertexCount = .ok () :=
    Memory.vector_eq_ok.2 ⟨vectorMaxSize_le h.items_le, h.deltaHeads⟩
  obtain ⟨t', hrun, hi, hh, -, hall⟩ := restoreVertices_ok f.version f.deletionBitmap
    f.vertexCount 0 f.data ⟨List.replicate f.vertexCount default,
      List.replicate f.vertexCount default, hresized⟩ (by simp) (by simp)
    fun j hj => by rw [Nat.zero_add]; exact h.versions j hj
  simp only [Nat.zero_add, length_replicate] at hi hh hall
  refine ⟨t', fun t => ?_, hi, hh, hall⟩
  refine bind_eq_ok.2 ⟨(), _, rfl, bind_eq_ok.2
    ⟨(), ⟨List.replicate f.vertexCount default, t.deltaHeads, hresized⟩, ?_,
      bind_eq_ok.2 ⟨(), _, rfl, bind_eq_ok.2 ⟨(), _, ?_, hrun⟩⟩⟩⟩
  · rw [resizeItems, dif_pos h.items_le, if_pos h.items]
  · simp only [resizeDeltaHeads, hheads]

/-- The bytes behind the bitmap hold the data, in the format of the header. -/
def HoldsData (zlib : Option Zlib) (mem : Memory) (compression totalDataSize : Nat)
    (rest data : List Nat) : Prop :=
  match compression, zlib with
  | 0, _ => totalDataSize ≤ rest.length ∧ data = rest.take totalDataSize
  | 1, some z => 8 ≤ rest.length ∧ mem.vector .compressed 1 (longRead rest) = .ok () ∧
    longRead rest ≤ (rest.drop 8).length ∧
    z.uncompress totalDataSize ((rest.drop 8).take (longRead rest)) = some data ∧
    data.length = totalDataSize
  | _, _ => False

/-- The file is complete, with at least one vertex, and there is memory for the buffers. -/
structure FileHolds (zlib : Option Zlib) (mem : Memory) (file : List Nat) (f : LoadedFile) :
    Prop where
  header : 32 ≤ file.length
  magic : longRead file = vertexFileMagic
  version : longRead (file.drop 8) = f.version
  count : longRead (file.drop 16) = f.vertexCount
  nonempty : f.vertexCount ≠ 0
  bitmapMemory : mem.vector .bitmap 1 ((f.vertexCount + 7) % 2 ^ 64 / 8) = .ok ()
  bitmap_le : (f.vertexCount + 7) % 2 ^ 64 / 8 ≤ (file.drop 32).length
  bitmap : f.deletionBitmap = (file.drop 32).take ((f.vertexCount + 7) % 2 ^ 64 / 8)
  dataMemory : mem.vector .data 1 (f.vertexCount * coreItemSize f.version % 2 ^ 64) = .ok ()
  data : HoldsData zlib mem (file.getD 24 0) (f.vertexCount * coreItemSize f.version % 2 ^ 64)
    ((file.drop 32).drop ((f.vertexCount + 7) % 2 ^ 64 / 8)) f.data

variable {zlib : Option Zlib} {mem : Memory} {bufferSize : Nat}

theorem readCoreData_eq_some (hb : 1 ≤ bufferSize) {compression totalDataSize : Nat}
    {rest data : List Nat} :
    readCoreData zlib mem bufferSize compression totalDataSize rest = .ok (some data) ↔
      HoldsData zlib mem compression totalDataSize rest data := by
  unfold readCoreData HoldsData
  split
  · rw [readBuffered_eq hb _ _ _ le_rfl]
    show Except.ok _ = Except.ok _ ↔ _
    by_cases hle : totalDataSize ≤ rest.length
    · simp [hle, eq_comm]
    · simp [hle]
  · rename_i z
    by_cases hlen : rest.length < 8
    · rw [if_pos hlen]
      exact iff_of_false (fun h => by cases h) fun h => by omega
    · rw [if_neg hlen]
      constructor
      · intro h
        obtain ⟨⟨⟩, hvector, h⟩ := bind_eq_ok.1 h
        rw [readBuffered_eq hb _ _ _ le_rfl] at h
        by_cases hle : longRead rest ≤ (rest.drop 8).length
        · rw [if_pos hle] at h
          obtain ⟨hun, hsize⟩ := Option.filter_eq_some_iff.1 (Except.ok.inj h)
          exact ⟨by omega, hvector, hle, hun, of_decide_eq_true hsize⟩
        · rw [if_neg hle] at h
          cases h
      · rintro ⟨-, hvector, hle, hun, hsize⟩
        refine bind_eq_ok.2 ⟨(), hvector, ?_⟩
        rw [readBuffered_eq hb _ _ _ le_rfl, if_pos hle]
        show Except.ok ((z.uncompress _ _).filter _) = _
        rw [hun, Option.filter_some, if_pos (decide_eq_true hsize)]
  · exact iff_of_false (fun h => by cases h) id

/-- A load goes on to the rebuild exactly with the contents of a complete file. -/
theorem readVertexFile_eq_some (hb : 1 ≤ bufferSize) (hn : f.vertexCount ≠ 0) :
    readVertexFile zlib mem bufferSize file = .ok (some f) ↔ FileHolds zlib mem file f := by
  obtain ⟨version, vertexCount, bitmap, data⟩ := f
  dsimp only at hn
  simp only [readVertexFile]
  constructor
  · intro h
    split_ifs at h with hheader hzero hshort
    · cases h
    · cases h
      exact absurd rfl hn
    · obtain ⟨⟨⟩, -, h⟩ := bind_eq_ok.1 h
      cases h
    · push Not at hheader
      obtain ⟨⟨⟩, hbitmap, h⟩ := bind_eq_ok.1 h
      obtain ⟨⟨⟩, hdata, h⟩ := bind_eq_ok.1 h
      obtain ⟨r, hr, h⟩ := bind_eq_ok.1 h
      obtain ⟨d, rfl, hf⟩ := Option.map_eq_some_iff.1 (Except.ok.inj h)
      cases hf
      exact ⟨hheader.1, hheader.2, rfl, rfl, hn, hbitmap, Nat.not_lt.1 hshort, rfl, hdata,
        (readCoreData_eq_some hb).1 hr⟩
  · intro h
    obtain ⟨hheader, hmagic, hversion, hcount, -, hbitmap, hle, heq, hdata, hholds⟩ := h
    dsimp only at hversion hcount hbitmap hle heq hdata hholds
    subst version vertexCount bitmap
    rw [if_neg (not_or.2 ⟨Nat.not_lt.2 hheader, not_not.2 hmagic⟩), if_neg hn]
    refine bind_eq_ok.2 ⟨(), hbitmap, ?_⟩
    rw [if_neg (Nat.not_lt.2 hle)]
    refine bind_eq_ok.2 ⟨(), hdata, bind_eq_ok.2 ⟨some data, ?_, rfl⟩⟩
    exact (readCoreData_eq_some hb).2 hholds

/-! ## The round trip -/

/-- The same page number, offset, type and deletion flag for every vertex, and the same delta
heads. -/
structure SameVertices (t t' : VertexTable) : Prop where
  length : t'.items.length = t.items.length
  items : ∀ (v : Nat) (item : VertexItem), t.items[v]? = some item →
    ∃ item' : VertexItem, t'.items[v]? = some item' ∧
      item'.pageNo = item.pageNo ∧ item'.offset = item.offset ∧
      item'.vertexType = item.vertexType ∧ item'.deleted = item.deleted
  heads_length : t'.deltaHeads.length = t.items.length
  heads : ∀ v < t.items.length, t'.head v = t.head v

/-- `is_valid`, and the location of the first record. -/
def DeltaHead.loc (h : DeltaHead) : Option DeltaLoc :=
  if h.pageNo = 0xFFFFFFFF then none else some ⟨h.pageNo.toNat, h.recordIdx.toNat⟩

/-- The vectors stand for an index of the sequential model. -/
structure VertexTable.Represents (t : VertexTable) (vi : VertexIndex) : Prop where
  size : vi.size = t.items.length
  items : ∀ (v : VId) (item : VertexItem), t.items[v]? = some item →
    (vi.items v).cur.pageNo = item.pageNo.toNat ∧ (vi.items v).cur.offset = item.offset.toNat ∧
      ((vi.items v).vertexType = .giant ↔ item.vertexType = 1) ∧
      (vi.items v).isDelete = item.deleted
  heads : ∀ v < t.items.length, vi.deltaHeads v = (t.head v).loc

/-- What a load makes of a saved index stands for the same index. -/
theorem SameVertices.represents {t t' : VertexTable} (h : SameVertices t t') {vi : VertexIndex}
    (ht : t.Represents vi) : t'.Represents vi := by
  refine ⟨ht.size.trans h.length.symm, fun v item' hv => ?_, fun v hv => ?_⟩
  · have hlt : v < t.items.length := by
      rw [← h.length]
      exact (List.getElem?_eq_some_iff.1 hv).1
    have hget : t.items[v]? = some t.items[v] := List.getElem?_eq_getElem hlt
    obtain ⟨item, hitem, hpage, hoffset, htype, hdeleted⟩ := h.items v _ hget
    rw [hv] at hitem
    cases hitem
    rw [hpage, hoffset, htype, hdeleted]
    exact ht.items v _ hget
  · rw [h.length] at hv
    rw [h.heads v hv]
    exact ht.heads v hv

/-- The load of a complete file. -/
theorem FileHolds.loadFromFile (hb : 1 ≤ bufferSize) (h : FileHolds zlib mem file f)
    (t : VertexTable) :
    loadFromFile zlib mem bufferSize file t = (do rebuild mem f; return true) t := by
  simp only [BwGraph.loadFromFile, (readVertexFile_eq_some hb h.nonempty).2 h]
  rw [if_neg h.nonempty]

end BwGraph
