import BwGraph.Io.IndexMatrix

/-
  The index page file (`save_index_pages_to_file` and `load_index_pages_from_file`, `db.cc`): a
  header of 20 bytes, then for every page its number and its image, written and read in batches of
  whole entries.

  The bytes survive: a load inserts one page for every entry, with the image that was saved
  (`loadLoop_entries`). The members do not. A load constructs the page first, the constructor
  marks it as parsed, and `self_parse` then leaves the members of an empty page in place
  (`loadedPage_eq`). So the round trip is faithful exactly on trees of empty pages
  (`load_save_iff`).
-/

namespace BwGraph

open List AList IndexPage

/-- `index_page_map`. -/
abbrev IndexPageMap := AList (fun _ : PageNo => IndexPage)

/-- The index members of the database; `root` is the number of the page that `root_index_page`
    points to. -/
structure IndexTree where
  pages : IndexPageMap
  root : Option PageNo
  levelCount : Nat

/-- An index tree whose numbers fit their types: whenever it has a page it has a root, which is
    one of its pages. -/
structure FormedTree (cfg : IndexConfig) extends IndexTree where
  formed : ∀ n p, pages.lookup n = some p → p.Formed cfg
  page_lt : ∀ n ∈ pages, n < 2 ^ 32
  root_mem : ∀ r, root = some r → r ∈ pages
  rooted : root = none → pages = ∅
  level_lt : levelCount < 2 ^ 64

section File

variable (cfg : IndexConfig)

/-- `page_entry_size`. -/
def pageEntrySize : Nat := 4 + cfg.pageSize

/-! ## Saving -/

/-- The locals of the writing loop; `file` is what the stream has received. -/
structure SaveState where
  file : List Nat
  writeBuffer : List Nat
  pagesWritten : Nat

/-- One entry of the file. -/
def pageEntry (e : PageNo × IndexPage) : List Nat := wordWrite e.1 ++ e.2.data

/-- One round of the writing loop. -/
def savePage (bufferSize pageCount : Nat) (s : SaveState) (e : PageNo × IndexPage) : SaveState :=
  let buffer := s.writeBuffer ++ pageEntry (e.1, e.2.selfParse)
  let written := s.pagesWritten + 1
  if buffer.length ≥ bufferSize - pageEntrySize cfg ∨ written = pageCount then
    ⟨s.file ++ buffer, [], written⟩
  else ⟨s.file, buffer, written⟩

/-- The pages in the order of the hash map. -/
def IndexTree.entries (ho : HashOrder) (t : IndexTree) : List (PageNo × IndexPage) :=
  (ho.order t.pages.keys).filterMap fun n => (t.pages.lookup n).map fun p => (n, p)

/-- The file header. -/
def fileHeader (pageCount rootPageNo levelCount : Nat) : List Nat :=
  longWrite pageCount ++ (wordWrite rootPageNo ++ longWrite levelCount)

/-- `save_index_pages_to_file`: what it returns and the file it leaves. -/
def saveIndexPagesToFile (ho : HashOrder) (bufferSize : Nat) (t : IndexTree) : Bool × List Nat :=
  let entries := t.entries ho
  let pageCount := entries.length
  let header := fileHeader pageCount (t.root.getD cfg.defaultPageNo) t.levelCount
  if bufferSize / pageEntrySize cfg = 0 then (false, header)
  else
    let s := entries.foldl (savePage cfg bufferSize pageCount) ⟨header, [], 0⟩
    (s.pagesWritten == pageCount, s.file)

/-! ## Loading -/

variable (ho : HashOrder) (fresh : Nat)

/-- The page built from one entry: a default page that is given the number and the bytes, and is
    then parsed. -/
def loadedPage (pageNo : PageNo) (bytes : List Nat) : Except String IndexPage := do
  let p ← IndexPage.create cfg ho fresh 0 ∅
  return { p with pageNo := pageNo, data := bytes }.selfParse

/-- The map and the root after one entry. -/
def IndexTree.addLoaded (rootPageNo pageNo : PageNo) (page : IndexPage) (t : IndexTree) :
    IndexTree :=
  { t with
    pages := t.pages.insert pageNo page
    root := if pageNo = rootPageNo then some pageNo else t.root }

/-- The loop over one read buffer. -/
def loadBatch (rootPageNo : PageNo) : Nat → List Nat → IndexTree → Except String IndexTree
  | 0, _, t => .ok t
  | k + 1, buf, t => do
    let pageNo := wordRead buf
    let page ← loadedPage cfg ho fresh pageNo ((buf.drop 4).take cfg.pageSize)
    loadBatch rootPageNo k (buf.drop (pageEntrySize cfg)) (t.addLoaded rootPageNo pageNo page)

/-- The reading loop; `remaining` is `page_count - pages_processed`. A short read clears the map
    and leaves the root pointer as it is. -/
def loadLoop (rootPageNo pagesPerBuffer : Nat) (remaining : Nat) (file : List Nat)
    (t : IndexTree) : Except String (Bool × IndexTree) :=
  if _h : 0 < remaining ∧ 0 < pagesPerBuffer then
    let pagesToRead := min pagesPerBuffer remaining
    let bytesToRead := pagesToRead * pageEntrySize cfg
    let buf := file.take bytesToRead
    if buf.length ≠ bytesToRead then .ok (false, { t with pages := ∅ })
    else
      match loadBatch cfg ho fresh rootPageNo pagesToRead buf t with
      | .error e => .error e
      | .ok t => loadLoop rootPageNo pagesPerBuffer (remaining - pagesToRead)
          (file.drop bytesToRead) t
  else .ok (true, t)
termination_by remaining
decreasing_by omega

/-- `load_index_pages_from_file` over the index members `old` of the database. -/
def loadIndexPagesFromFile (bufferSize : Nat) (file : List Nat) (old : IndexTree) :
    Except String (Bool × IndexTree) :=
  if file.length < 20 then .ok (false, old)
  else
    let levelCount := longRead (file.drop 12)
    let empty : IndexTree := ⟨∅, none, levelCount⟩
    let pagesPerBuffer := bufferSize / pageEntrySize cfg
    if pagesPerBuffer = 0 then .ok (false, empty)
    else loadLoop cfg ho fresh (wordRead (file.drop 8)) pagesPerBuffer (longRead file)
      (file.drop 20) empty

end File

/-! ## What a save writes -/

section Save

variable {cfg : IndexConfig}

/-- What the stream and the buffer hold together, and that nothing is left behind. -/
structure SaveState.Holds (pageCount : Nat) (s : SaveState) (bytes : List Nat) (n : Nat) :
    Prop where
  bytes : s.file ++ s.writeBuffer = bytes
  written : s.pagesWritten = n
  flushed : n = pageCount → s.writeBuffer = []

variable {e : PageNo × IndexPage}

theorem SaveState.Holds.savePage {pageCount n : Nat} {s : SaveState} {bytes : List Nat}
    (h : s.Holds pageCount bytes n) (bufferSize : Nat) (he : e.2.Formed cfg) :
    (BwGraph.savePage cfg bufferSize pageCount s e).Holds pageCount (bytes ++ pageEntry e)
      (n + 1) := by
  have hself : pageEntry (e.1, e.2.selfParse) = pageEntry e := by rw [he.selfParse]
  have hbytes : s.file ++ (s.writeBuffer ++ pageEntry e) = bytes ++ pageEntry e := by
    rw [← append_assoc, h.bytes]
  unfold BwGraph.savePage
  rw [hself, h.written]
  dsimp only
  split
  · exact ⟨by rw [append_nil]; exact hbytes, rfl, fun _ => rfl⟩
  · rename_i hnot
    exact ⟨hbytes, rfl, fun hn => absurd (Or.inr hn) hnot⟩

theorem savePages_holds {pageCount : Nat} (bufferSize : Nat) (es : List (PageNo × IndexPage)) :
    ∀ {n : Nat} {s : SaveState} {bytes : List Nat}, (∀ e ∈ es, e.2.Formed cfg) →
      s.Holds pageCount bytes n →
      (es.foldl (savePage cfg bufferSize pageCount) s).Holds pageCount
        (bytes ++ es.flatMap pageEntry) (n + es.length) := by
  induction es with
  | nil =>
    intro n s bytes _ h
    simpa using h
  | cons e es ih =>
    intro n s bytes hes h
    have hstep := h.savePage bufferSize (hes e mem_cons_self)
    have hrest := ih (fun x hx => hes x (mem_cons_of_mem _ hx)) hstep
    rw [foldl_cons, flatMap_cons, length_cons, ← append_assoc,
      Nat.add_comm es.length 1, ← Nat.add_assoc]
    exact hrest

variable {ho : HashOrder} {t : IndexTree}

theorem IndexTree.mem_entries : e ∈ t.entries ho ↔ t.pages.lookup e.1 = some e.2 := by
  obtain ⟨n, p⟩ := e
  simp only [IndexTree.entries, mem_filterMap, Option.map_eq_some_iff, Prod.mk.injEq]
  constructor
  · rintro ⟨m, _, q, hq, rfl, rfl⟩
    exact hq
  · intro h
    have hmem : n ∈ t.pages.keys := mem_keys.1 (lookup_isSome.1 (by rw [h]; rfl))
    exact ⟨n, (ho.perm _).mem_iff.2 hmem, p, h, rfl, rfl⟩

theorem IndexTree.mem_entries_keys {n : PageNo} :
    n ∈ (t.entries ho).map Prod.fst ↔ n ∈ t.pages := by
  rw [mem_map]
  constructor
  · rintro ⟨e, he, rfl⟩
    exact lookup_isSome.1 (by rw [mem_entries.1 he]; rfl)
  · intro hn
    obtain ⟨p, hp⟩ := Option.isSome_iff_exists.1 (lookup_isSome.2 hn)
    exact ⟨(n, p), mem_entries.2 hp, rfl⟩

theorem IndexTree.length_entries (ho : HashOrder) (t : IndexTree) :
    (t.entries ho).length = t.pages.keys.length := by
  have hmap : (t.entries ho).map Prod.fst = ho.order t.pages.keys := by
    rw [IndexTree.entries, map_filterMap]
    refine (filterMap_congr ?_).trans filterMap_some
    intro n hn
    have hmem : n ∈ t.pages := mem_keys.2 ((ho.perm _).mem_iff.1 hn)
    obtain ⟨p, hp⟩ := Option.isSome_iff_exists.1 (lookup_isSome.2 hmem)
    rw [hp]
    rfl
  rw [← length_map (f := Prod.fst), hmap, (ho.perm _).length_eq]

variable (t : FormedTree cfg)

theorem FormedTree.entries_formed (ho : HashOrder) : ∀ e ∈ t.entries ho, e.2.Formed cfg :=
  fun e he => t.formed e.1 e.2 (IndexTree.mem_entries.1 he)

/-- A save with a buffer for one entry succeeds, and the file is the header and the entries. -/
theorem saveIndexPagesToFile_eq (ho : HashOrder) {bufferSize : Nat}
    (hbuf : pageEntrySize cfg ≤ bufferSize) :
    saveIndexPagesToFile cfg ho bufferSize t.toIndexTree =
      (true, fileHeader (t.entries ho).length (t.root.getD cfg.defaultPageNo) t.levelCount ++
        (t.entries ho).flatMap pageEntry) := by
  have hpos : 0 < pageEntrySize cfg := by
    unfold pageEntrySize
    omega
  have hper : bufferSize / pageEntrySize cfg ≠ 0 := Nat.pos_iff_ne_zero.1 (Nat.div_pos hbuf hpos)
  have hstart : SaveState.Holds (t.entries ho).length
      ⟨fileHeader (t.entries ho).length (t.root.getD cfg.defaultPageNo) t.levelCount, [], 0⟩
      (fileHeader (t.entries ho).length (t.root.getD cfg.defaultPageNo) t.levelCount) 0 :=
    ⟨append_nil _, rfl, fun _ => rfl⟩
  have h := savePages_holds bufferSize _ (t.entries_formed ho) hstart
  have hwritten := h.written
  have hbytes := h.bytes
  rw [Nat.zero_add] at hwritten
  rw [h.flushed (Nat.zero_add _), append_nil] at hbytes
  unfold saveIndexPagesToFile
  dsimp only
  rw [if_neg hper, hbytes, hwritten, beq_self_eq_true]

end Save

/-! ## What a load makes of it -/

section Load

variable (cfg : IndexConfig) (ho : HashOrder) (fresh : Nat)

/-- The default constructor leaves an empty page that is marked as parsed. -/
theorem create_empty :
    ∃ data, create cfg ho fresh 0 ∅ = .ok ⟨0, true, 0, 0, 0, data⟩ := by
  have hkeys : ho.order (∅ : BlockAdjMap).keys = [] := perm_nil.1 (ho.perm _)
  have hcap : ¬ (∅ : BlockAdjMap).keys.length > cfg.maxBlocks := by
    rw [keys_empty]
    exact Nat.not_lt_zero _
  unfold create buildFromBlockAdjmap
  rw [if_neg hcap, if_neg (Nat.not_lt.2 (bitmap_le cfg)), hkeys]
  exact ⟨_, rfl⟩

/-- The page that comes out of an entry: the saved image under the members of an empty page. -/
def emptyWith (pageNo : PageNo) (bytes : List Nat) : IndexPage := ⟨pageNo, true, 0, 0, 0, bytes⟩

theorem loadedPage_eq (pageNo : PageNo) (bytes : List Nat) :
    loadedPage cfg ho fresh pageNo bytes = .ok (emptyWith pageNo bytes) := by
  obtain ⟨data, hdata⟩ := create_empty cfg ho fresh
  unfold loadedPage
  rw [hdata]
  rfl

/-- The tree after the entries `es` have been loaded into `t`. -/
def IndexTree.addEntries (rootPageNo : PageNo) (es : List (PageNo × IndexPage)) (t : IndexTree) :
    IndexTree :=
  es.foldl (fun t e => t.addLoaded rootPageNo e.1 (emptyWith e.1 e.2.data)) t

variable {cfg}

theorem length_pageEntry {e : PageNo × IndexPage} (he : e.2.Formed cfg) :
    (pageEntry e).length = pageEntrySize cfg := by
  rw [pageEntry, length_append, length_wordWrite, he.length, pageEntrySize]

theorem length_flatMap_pageEntry (es : List (PageNo × IndexPage)) (hes : ∀ e ∈ es, e.2.Formed cfg) :
    (es.flatMap pageEntry).length = es.length * pageEntrySize cfg := by
  induction es with
  | nil => simp
  | cons e es ih =>
    rw [flatMap_cons, length_append, length_pageEntry (hes e mem_cons_self),
      ih fun x hx => hes x (mem_cons_of_mem _ hx), length_cons, Nat.succ_mul,
      Nat.add_comm]

variable (rootPageNo : PageNo)

theorem loadBatch_entries (es : List (PageNo × IndexPage)) :
    ∀ (t : IndexTree) (rest : List Nat), (∀ e ∈ es, e.1 < 2 ^ 32 ∧ e.2.Formed cfg) →
      loadBatch cfg ho fresh rootPageNo es.length (es.flatMap pageEntry ++ rest) t =
        .ok (t.addEntries rootPageNo es) := by
  induction es with
  | nil =>
    intro t rest _
    rfl
  | cons e es ih =>
    intro t rest hes
    obtain ⟨hlt, hformed⟩ := hes e mem_cons_self
    have hbuf : (e :: es).flatMap pageEntry ++ rest =
        wordWrite e.1 ++ (e.2.data ++ (es.flatMap pageEntry ++ rest)) := by
      simp only [flatMap_cons, pageEntry, append_assoc]
    have hno : wordRead ((e :: es).flatMap pageEntry ++ rest) = e.1 := by
      rw [hbuf]
      exact wordRead_wordWrite hlt _
    have hdata : (((e :: es).flatMap pageEntry ++ rest).drop 4).take cfg.pageSize = e.2.data := by
      rw [hbuf, drop_left' (length_wordWrite _), take_left' hformed.length]
    have hrest : ((e :: es).flatMap pageEntry ++ rest).drop (pageEntrySize cfg) =
        es.flatMap pageEntry ++ rest := by
      rw [flatMap_cons, append_assoc, drop_left' (length_pageEntry hformed)]
    rw [length_cons, loadBatch, hno, hdata, hrest, loadedPage_eq]
    exact ih _ _ fun x hx => hes x (mem_cons_of_mem _ hx)

theorem addEntries_append (es fs : List (PageNo × IndexPage)) (t : IndexTree) :
    t.addEntries rootPageNo (es ++ fs) = (t.addEntries rootPageNo es).addEntries rootPageNo fs :=
  foldl_append

/-- A load reads every entry back, whatever the batches. -/
theorem loadLoop_entries {perBuffer : Nat} (hper : 0 < perBuffer) (n : Nat) :
    ∀ (es : List (PageNo × IndexPage)) (t : IndexTree), es.length = n →
      (∀ e ∈ es, e.1 < 2 ^ 32 ∧ e.2.Formed cfg) →
      loadLoop cfg ho fresh rootPageNo perBuffer es.length (es.flatMap pageEntry) t =
        .ok (true, t.addEntries rootPageNo es) := by
  induction n using Nat.strong_induction_on with
  | _ n ih =>
    intro es t hn hes
    rw [loadLoop]
    by_cases hzero : es.length = 0
    · obtain rfl := length_eq_zero_iff.1 hzero
      rw [dif_neg fun h => absurd h.1 (Nat.not_lt_zero _)]
      rfl
    rw [dif_pos ⟨Nat.pos_of_ne_zero hzero, hper⟩]
    -- one batch: the entries in front of the cut
    obtain ⟨k, hk⟩ : ∃ k, k = min perBuffer es.length := ⟨_, rfl⟩
    have hkpos : 0 < k := by omega
    have hkle : k ≤ es.length := by omega
    have htake : (es.take k).length = k := length_take_of_le hkle
    have hfront : ∀ e ∈ es.take k, e.1 < 2 ^ 32 ∧ e.2.Formed cfg :=
      fun e he => hes e (mem_of_mem_take he)
    have hback : ∀ e ∈ es.drop k, e.1 < 2 ^ 32 ∧ e.2.Formed cfg :=
      fun e he => hes e (mem_of_mem_drop he)
    have hsplit : es.flatMap pageEntry =
        (es.take k).flatMap pageEntry ++ (es.drop k).flatMap pageEntry := by
      rw [← flatMap_append, take_append_drop]
    have hbytes : ((es.take k).flatMap pageEntry).length = k * pageEntrySize cfg := by
      rw [length_flatMap_pageEntry _ fun e he => (hfront e he).2, htake]
    have hread : (es.flatMap pageEntry).take (k * pageEntrySize cfg) =
        (es.take k).flatMap pageEntry := by
      rw [hsplit, take_left' hbytes]
    have hleft : (es.flatMap pageEntry).drop (k * pageEntrySize cfg) =
        (es.drop k).flatMap pageEntry := by
      rw [hsplit, drop_left' hbytes]
    have hbatch := loadBatch_entries ho fresh rootPageNo (es.take k) t [] hfront
    rw [htake, append_nil] at hbatch
    rw [← hk]
    dsimp only
    rw [hread, hleft, hbytes, if_neg (fun h => h rfl), hbatch]
    dsimp only
    have hlen : (es.drop k).length = es.length - k := length_drop
    rw [← hlen, ih (es.drop k).length (by omega) (es.drop k) _ rfl hback, ← addEntries_append,
      take_append_drop]

section

variable (rootPageNo pageNo : PageNo) (page : IndexPage) (t : IndexTree)

@[simp] theorem IndexTree.addLoaded_pages :
    (t.addLoaded rootPageNo pageNo page).pages = t.pages.insert pageNo page := rfl

@[simp] theorem IndexTree.addLoaded_root : (t.addLoaded rootPageNo pageNo page).root =
      if pageNo = rootPageNo then some pageNo else t.root := rfl

end

variable (rootPageNo : PageNo)

theorem mem_addEntries {n : PageNo} (es : List (PageNo × IndexPage)) :
    ∀ t : IndexTree, n ∈ (t.addEntries rootPageNo es).pages ↔
      n ∈ t.pages ∨ n ∈ es.map Prod.fst := by
  induction es with
  | nil => simp [IndexTree.addEntries]
  | cons e es ih =>
    intro t
    refine (ih _).trans ?_
    simp only [IndexTree.addLoaded_pages, mem_insert, map_cons, mem_cons]
    tauto

theorem lookup_addEntries {n : PageNo} {q : IndexPage} (es : List (PageNo × IndexPage)) :
    ∀ t : IndexTree,
      (t.addEntries rootPageNo es).pages.lookup n = some q →
        t.pages.lookup n = some q ∨ ∃ e ∈ es, n = e.1 ∧ q = emptyWith e.1 e.2.data := by
  induction es with
  | nil => exact fun t h => .inl h
  | cons e es ih =>
    intro t h
    obtain h | ⟨f, hf, hn, hq⟩ := ih _ h
    · rw [IndexTree.addLoaded_pages] at h
      by_cases hne : n = e.1
      · subst hne
        rw [lookup_insert] at h
        exact .inr ⟨e, mem_cons_self, rfl, (Option.some.inj h).symm⟩
      · rw [lookup_insert_ne hne] at h
        exact .inl h
    · exact .inr ⟨f, mem_cons_of_mem _ hf, hn, hq⟩

theorem root_addEntries (es : List (PageNo × IndexPage)) :
    ∀ t : IndexTree, (t.addEntries rootPageNo es).root =
      if rootPageNo ∈ es.map Prod.fst then some rootPageNo else t.root := by
  induction es with
  | nil => exact fun t => rfl
  | cons e es ih =>
    intro t
    refine (ih _).trans ?_
    rw [IndexTree.addLoaded_root, map_cons]
    by_cases he : e.1 = rootPageNo
    · simp [he]
    · have hiff : rootPageNo ∈ e.1 :: es.map Prod.fst ↔ rootPageNo ∈ es.map Prod.fst :=
        mem_cons.trans (or_iff_right (Ne.symm he))
      simp only [if_neg he, hiff]

variable (t : FormedTree cfg)

theorem FormedTree.length_entries_lt : (t.entries ho).length < 2 ^ 64 := by
  have hsub : t.pages.keys ⊆ range (2 ^ 32) :=
    fun n hn => mem_range.2 (t.page_lt n (mem_keys.2 hn))
  have hle := (subperm_of_subset t.pages.keys_nodup hsub).length_le
  rw [length_range] at hle
  rw [IndexTree.length_entries]
  exact Nat.lt_of_le_of_lt hle (by decide)

theorem FormedTree.root_lt : t.root.getD cfg.defaultPageNo < 2 ^ 32 := by
  cases hroot : t.root with
  | none => exact cfg.default_lt
  | some r => exact t.page_lt r (t.root_mem r hroot)

/-- What a load makes of a saved tree. -/
theorem load_save_eq (saveOrder : HashOrder) {bufferSize : Nat}
    (hbuf : pageEntrySize cfg ≤ bufferSize) (old : IndexTree) :
    loadIndexPagesFromFile cfg ho fresh bufferSize
        (saveIndexPagesToFile cfg saveOrder bufferSize t.toIndexTree).2 old =
      .ok (true, IndexTree.addEntries (t.root.getD cfg.defaultPageNo) (t.entries saveOrder)
        ⟨∅, none, t.levelCount⟩) := by
  have hpos : 0 < pageEntrySize cfg := by
    unfold pageEntrySize
    omega
  have hper : 0 < bufferSize / pageEntrySize cfg := Nat.div_pos hbuf hpos
  have hes : ∀ e ∈ t.entries saveOrder, e.1 < 2 ^ 32 ∧ e.2.Formed cfg := fun e he =>
    ⟨t.page_lt _ (IndexTree.mem_entries_keys.1 (mem_map_of_mem he)),
      t.entries_formed saveOrder e he⟩
  obtain ⟨file, hfile⟩ : ∃ file, file = (t.entries saveOrder).flatMap pageEntry := ⟨_, rfl⟩
  have hlen : ¬ (fileHeader (t.entries saveOrder).length (t.root.getD cfg.defaultPageNo)
      t.levelCount ++ file).length < 20 := by
    simp only [fileHeader, length_append, length_longWrite, length_wordWrite]
    omega
  have hcount : longRead (fileHeader (t.entries saveOrder).length
      (t.root.getD cfg.defaultPageNo) t.levelCount ++ file) = (t.entries saveOrder).length := by
    rw [fileHeader, append_assoc]
    exact longRead_longWrite (t.length_entries_lt saveOrder) _
  have hroot : wordRead ((fileHeader (t.entries saveOrder).length
      (t.root.getD cfg.defaultPageNo) t.levelCount ++ file).drop 8) =
      t.root.getD cfg.defaultPageNo :=
    wordRead_wordWrite t.root_lt (longWrite t.levelCount ++ file)
  have hlevel : longRead ((fileHeader (t.entries saveOrder).length
      (t.root.getD cfg.defaultPageNo) t.levelCount ++ file).drop 12) = t.levelCount :=
    longRead_longWrite t.level_lt file
  have hrest : (fileHeader (t.entries saveOrder).length (t.root.getD cfg.defaultPageNo)
      t.levelCount ++ file).drop 20 = file := rfl
  rw [saveIndexPagesToFile_eq t saveOrder hbuf, loadIndexPagesFromFile]
  dsimp only
  rw [← hfile, if_neg hlen, if_neg (Nat.pos_iff_ne_zero.1 hper), hcount, hroot, hlevel, hrest,
    hfile]
  exact loadLoop_entries ho fresh _ hper _ _ _ rfl hes

end Load

/-! ## The round trip -/

/-- Two pages with the same blocks, parent, neighbour pages and block adjacency. -/
structure IndexPage.SameMembers (cfg : IndexConfig) (p q : IndexPage) : Prop where
  blocks : q.getBlocks cfg = p.getBlocks cfg
  parent : q.parentPageNo = p.parentPageNo
  neighbors : q.readNeighborBlockClone = p.readNeighborBlockClone
  adjacency : q.getBlockAdjMap cfg = p.getBlockAdjMap cfg

/-- Two trees with the same page numbers, page by page the same members, and the same root. -/
structure IndexTree.SameTree (cfg : IndexConfig) (t u : IndexTree) : Prop where
  pageNos : ∀ n, n ∈ u.pages ↔ n ∈ t.pages
  pages : ∀ n p q, t.pages.lookup n = some p → u.pages.lookup n = some q → p.SameMembers cfg q
  root : u.root = t.root

/-- The save succeeds, and a load of the file, over any tree `old`, succeeds with the same tree. -/
def SavesAndLoads (cfg : IndexConfig) (saveOrder ho : HashOrder) (fresh bufferSize : Nat)
    (old t : IndexTree) : Prop :=
  (saveIndexPagesToFile cfg saveOrder bufferSize t).1 = true ∧
    ∃ u, loadIndexPagesFromFile cfg ho fresh bufferSize
      (saveIndexPagesToFile cfg saveOrder bufferSize t).2 old = .ok (true, u) ∧ t.SameTree cfg u

/-- No blocks, no parent and no neighbour pages. -/
structure IndexPage.Blank (cfg : IndexConfig) (p : IndexPage) : Prop where
  blocks : p.getBlocks cfg = []
  parent : p.parentPageNo = 0
  neighbors : p.readNeighborBlockClone = []

section RoundTrip

variable {cfg : IndexConfig}

theorem getBlockAdjMap_of_blocks {p : IndexPage} (h : p.getBlocks cfg = []) :
    p.getBlockAdjMap cfg = ∅ := by
  have hlen := length_wordReads p.numBlocks (p.data.drop (blocksOff cfg))
  rw [← getBlocks, h, length_nil] at hlen
  unfold getBlockAdjMap
  rw [← hlen]
  rfl

/-- A page keeps its members through the file exactly when it has none. -/
theorem sameMembers_emptyWith_iff (p : IndexPage) (n : PageNo) (bytes : List Nat) :
    p.SameMembers cfg (emptyWith n bytes) ↔ p.Blank cfg := by
  constructor
  · intro h
    exact ⟨h.blocks.symm, h.parent.symm, h.neighbors.symm⟩
  · intro h
    refine ⟨h.blocks.symm, h.parent.symm, h.neighbors.symm, ?_⟩
    rw [getBlockAdjMap_of_blocks h.blocks]
    rfl

/-- The members of the page loaded under `n`, for a page saved under `n`. -/
theorem sameTree_addEntries_iff (t : FormedTree cfg) (ho : HashOrder) (levelCount : Nat) :
    t.SameTree cfg (IndexTree.addEntries (t.root.getD cfg.defaultPageNo) (t.entries ho)
      ⟨∅, none, levelCount⟩) ↔ ∀ n p, t.pages.lookup n = some p → p.Blank cfg := by
  obtain ⟨u, hu⟩ : ∃ u, u = IndexTree.addEntries (t.root.getD cfg.defaultPageNo) (t.entries ho)
      ⟨∅, none, levelCount⟩ := ⟨_, rfl⟩
  have hmem : ∀ n, n ∈ u.pages ↔ n ∈ t.pages := by
    intro n
    rw [hu, mem_addEntries, IndexTree.mem_entries_keys]
    simp
  have hlookup : ∀ n q, u.pages.lookup n = some q → ∃ bytes, q = emptyWith n bytes := by
    intro n q hq
    rw [hu] at hq
    obtain h | ⟨e, _, rfl, rfl⟩ := lookup_addEntries _ _ _ hq
    · rw [lookup_empty] at h
      cases h
    · exact ⟨_, rfl⟩
  have hroot : u.root = t.root := by
    rw [hu, root_addEntries]
    cases hr : t.root with
    | none =>
      have hempty : t.entries ho = [] := by
        rw [← length_eq_zero_iff, IndexTree.length_entries, t.rooted hr]
        rfl
      rw [hempty]
      rfl
    | some r => exact if_pos (IndexTree.mem_entries_keys.2 (t.root_mem r hr))
  rw [← hu]
  constructor
  · intro h n p hp
    have hn : n ∈ u.pages := (hmem n).2 (lookup_isSome.1 (by rw [hp]; rfl))
    obtain ⟨q, hq⟩ := Option.isSome_iff_exists.1 (lookup_isSome.2 hn)
    obtain ⟨bytes, rfl⟩ := hlookup n q hq
    exact (sameMembers_emptyWith_iff p n bytes).1 (h.pages n p _ hp hq)
  · intro h
    refine ⟨hmem, ?_, hroot⟩
    intro n p q hp hq
    obtain ⟨bytes, rfl⟩ := hlookup n q hq
    exact (sameMembers_emptyWith_iff p n bytes).2 (h n p hp)

/-- The round trip is faithful exactly when the buffer holds an entry and no page of the tree has
    a block, a parent or a neighbour page. -/
theorem load_save_iff (t : FormedTree cfg) (saveOrder ho : HashOrder) (fresh bufferSize : Nat)
    (old : IndexTree) : SavesAndLoads cfg saveOrder ho fresh bufferSize old t.toIndexTree ↔
      pageEntrySize cfg ≤ bufferSize ∧ ∀ n p, t.pages.lookup n = some p → p.Blank cfg := by
  unfold SavesAndLoads
  by_cases hbuf : pageEntrySize cfg ≤ bufferSize
  · rw [load_save_eq ho fresh t saveOrder hbuf old, saveIndexPagesToFile_eq t saveOrder hbuf]
    constructor
    · rintro ⟨-, u, hu, hsame⟩
      injection hu with hu
      obtain rfl := (Prod.mk.inj hu).2
      exact ⟨hbuf, (sameTree_addEntries_iff t saveOrder _).1 hsame⟩
    · rintro ⟨-, hblank⟩
      exact ⟨rfl, _, rfl, (sameTree_addEntries_iff t saveOrder _).2 hblank⟩
  · have hper : bufferSize / pageEntrySize cfg = 0 := Nat.div_eq_of_lt (Nat.not_le.1 hbuf)
    constructor
    · rintro ⟨hsaved, -⟩
      rw [saveIndexPagesToFile] at hsaved
      dsimp only at hsaved
      rw [if_pos hper] at hsaved
      cases hsaved
    · exact fun h => absurd h.1 hbuf

/-- A page with one block, as the constructor builds it in a small configuration, and a tree of
    that page alone. -/
def oneBlockConfig : IndexConfig := ⟨64, 2, 4, 0, IndexPage.fourBlockConfig.fits,
  IndexPage.fourBlockConfig.room, zero_lt_pageNos⟩

def oneBlockPage : IndexPage :=
  ⟨9, true, 1, 0, 0, List.replicate 20 0 ++ wordWrite 5 ++ List.replicate 40 0⟩

def oneBlockTree : FormedTree oneBlockConfig where
  pages := AList.insert 9 oneBlockPage ∅
  root := some 9
  levelCount := 2
  formed := by
    intro n p h
    have hp : p = oneBlockPage := by
      by_cases hn : n = 9
      · subst hn
        rw [AList.lookup_insert] at h
        exact (Option.some.inj h).symm
      · rw [AList.lookup_insert_ne hn, AList.lookup_empty] at h
        cases h
    subst hp
    exact ⟨rfl, rfl⟩
  page_lt := by
    intro n hn
    obtain rfl | h := (AList.mem_insert _).1 hn
    · decide
    · exact absurd h (AList.notMem_empty _)
  root_mem := by
    rintro r ⟨⟩
    exact (AList.mem_insert _).2 (.inl rfl)
  rooted := nofun
  level_lt := by decide

/-- The tree is saved and loaded without an error, and the loaded page has lost its block. -/
theorem load_save_loses_block :
    IndexPage.create oneBlockConfig ⟨id, fun _ => .refl _⟩ 0 9 (AList.insert 5 [] ∅) =
        .ok oneBlockPage ∧
      ¬ SavesAndLoads oneBlockConfig ⟨id, fun _ => .refl _⟩ ⟨id, fun _ => .refl _⟩ 0 1048576
        ⟨∅, none, 0⟩ oneBlockTree.toIndexTree := by
  refine ⟨by decide, ?_⟩
  rintro ⟨-, u, hu, hsame⟩
  rw [load_save_eq _ _ oneBlockTree _ (by decide)] at hu
  injection hu with hu
  obtain rfl := (Prod.mk.inj hu).2
  have hblank := (sameTree_addEntries_iff oneBlockTree _ _).1 hsame 9 oneBlockPage
    (AList.lookup_insert _)
  have hblocks : oneBlockPage.getBlocks oneBlockConfig = [5] := by decide
  rw [hblank.blocks] at hblocks
  cases hblocks

end RoundTrip

end BwGraph
