import Mathlib.Data.List.Induction
import Mathlib.Data.Set.Insert
import BwGraph.Lib.Run
import BwGraph.Storage.DiskManager

/-
  Runs of `disk_manager_t` (`disk_manager.cc`): which pages `allocate_page` may hand out, and what
  `read_page` finds in the file. The file is an unbounded byte file with `pread`, `pwrite` and
  `fallocate`; `read_page` refuses pages beyond `page_capacity_`, which `write_page` raises and
  `allocate_page` may lower again.

  Along every run the pages below `global_page_count_` lie within the capacity, a written page is
  one of them, and no live page is free (`PageUse.Inv`). So a page that is handed out is not live
  (`allocatePage_notLive`), and a written page reads back as the last write left it
  (`readPage_lastWrite`). While only live pages are written none is lost (`pages_accounted`).
-/

namespace BwGraph

open Function List Nat DiskManager

/-! ## Pages in use -/

/-- What a caller does with the pages of a manager. -/
inductive DiskOp where
  | allocate
  | delete (pageNo : PageNo)
  | write (pageNo : PageNo)

/-- A manager and the pages in use: `live` are those allocated or written and not deleted since,
`used` all that ever were. -/
structure PageUse where
  manager : DiskManager
  live : Set PageNo
  used : Set PageNo

namespace PageUse

/-- Only live pages are deleted, and only live or unused pages are written. -/
inductive Step : PageUse → DiskOp → PageUse → Prop
  | allocate (s : PageUse) : Step s .allocate
      ⟨s.manager.afterAllocate, insert s.manager.allocatePageNo s.live,
        insert s.manager.allocatePageNo s.used⟩
  | delete (s : PageUse) (p : PageNo) (h : p ∈ s.live) : Step s (.delete p)
      ⟨s.manager.deletePage p, s.live \ {p}, s.used⟩
  | write (s : PageUse) (p : PageNo) (h : p ∈ s.live ∨ p ∉ s.used) : Step s (.write p)
      ⟨s.manager.noteWrite p, insert p s.live, insert p s.used⟩

/-- A manager that has just been opened: nothing is free, and the pages in use are in the file. -/
structure Opened (s : PageUse) : Prop where
  pageSize : 0 < s.manager.pageSize
  freeSlots : s.manager.freeSlots = []
  live_used : s.live ⊆ s.used
  used_lt : ∀ p ∈ s.used, p < s.manager.globalPageCount

/-- Free pages are dead pages below the page count, each listed once. -/
structure Inv (s : PageUse) : Prop where
  pageSize : 0 < s.manager.pageSize
  live_used : s.live ⊆ s.used
  used_lt : ∀ p ∈ s.used, p < s.manager.globalPageCount
  free_used : ∀ p ∈ s.manager.freePages, p ∈ s.used
  free_dead : ∀ p ∈ s.manager.freePages, p ∉ s.live
  nodup : s.manager.freePages.Nodup
  aligned : ∀ o ∈ s.manager.freeSlots, o = o / s.manager.pageSize * s.manager.pageSize

variable {s s' : PageUse}

theorem Opened.inv (h : s.Opened) : s.Inv := by
  have hfree : s.manager.freePages = [] := by rw [freePages, h.freeSlots, map_nil]
  refine ⟨h.pageSize, h.live_used, h.used_lt, ?_, ?_, ?_, ?_⟩
  · simp [hfree]
  · simp [hfree]
  · simp [hfree]
  · simp [h.freeSlots]

theorem Inv.free_lt (h : s.Inv) : ∀ p ∈ s.manager.freePages, p < s.manager.globalPageCount :=
  fun p hp => h.used_lt p (h.free_used p hp)

/-- The page that is handed out is not live. -/
theorem Inv.allocatePageNo_notMem (h : s.Inv) : s.manager.allocatePageNo ∉ s.live := by
  obtain ⟨-, hfrom, -⟩ := allocatePage_free h.pageSize h.nodup h.free_lt
  intro hlive
  rcases hfrom with hfree | hnew
  · exact h.free_dead _ hfree hlive
  · exact Nat.not_lt.2 hnew (h.used_lt _ (h.live_used hlive))

theorem Inv.allocate (h : s.Inv) : Inv ⟨s.manager.afterAllocate,
    insert s.manager.allocatePageNo s.live, insert s.manager.allocatePageNo s.used⟩ := by
  obtain ⟨hout, -, hlt, hnd, hsub, hle⟩ :=
    allocatePage_free h.pageSize h.nodup h.free_lt
  refine ⟨?_, Set.insert_subset_insert h.live_used, ?_, ?_, ?_, hnd, ?_⟩
  · rw [afterAllocate_pageSize]
    exact h.pageSize
  · rintro p (rfl | hp)
    · exact hlt
    · exact Nat.lt_of_lt_of_le (h.used_lt p hp) hle
  · exact fun p hp => .inr (h.free_used p (hsub p hp))
  · rintro p hp (rfl | hlive)
    · exact hout hp
    · exact h.free_dead p (hsub p hp) hlive
  · intro o ho
    have hold : o ∈ s.manager.freeSlots := by
      unfold afterAllocate allocatePage at ho
      cases hf : s.manager.freeSlots with
      | nil => simp [hf] at ho
      | cons x rest =>
        simp only [hf] at ho
        exact mem_cons_of_mem _ ho
    rw [afterAllocate_pageSize]
    exact h.aligned o hold

theorem Inv.delete (h : s.Inv) {p : PageNo} (hp : p ∈ s.live) :
    Inv ⟨s.manager.deletePage p, s.live \ {p}, s.used⟩ := by
  have hout : p ∉ s.manager.freePages := fun hf => h.free_dead p hf hp
  refine ⟨?_, fun q hq => h.live_used hq.1, ?_, ?_, ?_, ?_, ?_⟩
  · rw [deletePage_pageSize]
    exact h.pageSize
  · intro q hq
    rw [deletePage_globalPageCount]
    exact h.used_lt q hq
  · intro q hq
    rcases mem_freePages_deletePage h.pageSize hq with rfl | hq
    · exact h.live_used hp
    · exact h.free_used q hq
  · intro q hq hlive
    rcases mem_freePages_deletePage h.pageSize hq with rfl | hq
    · exact hlive.2 rfl
    · exact h.free_dead q hq hlive.1
  · exact nodup_freePages_deletePage h.pageSize hout h.nodup
  · intro o ho
    rw [deletePage_pageSize]
    unfold deletePage at ho
    dsimp only at ho
    split at ho
    · exact h.aligned o ho
    · rcases mem_cons.1 ho with rfl | ho
      · rw [Nat.mul_div_cancel p h.pageSize]
      · exact h.aligned o ho

theorem Inv.write (h : s.Inv) {p : PageNo} (hp : p ∈ s.live ∨ p ∉ s.used) :
    Inv ⟨s.manager.noteWrite p, insert p s.live, insert p s.used⟩ := by
  have hout : p ∉ s.manager.freePages := by
    intro hf
    rcases hp with hp | hp
    · exact h.free_dead p hf hp
    · exact hp (h.free_used p hf)
  refine ⟨h.pageSize, Set.insert_subset_insert h.live_used, ?_, ?_, ?_, h.nodup, h.aligned⟩
  · rintro q (rfl | hq)
    · exact Nat.lt_of_lt_of_le (lt_succ_self q) (Nat.le_max_right _ _)
    · exact Nat.lt_of_lt_of_le (h.used_lt q hq) (Nat.le_max_left _ _)
  · exact fun q hq => .inr (h.free_used q hq)
  · rintro q hq (rfl | hlive)
    · exact hout hq
    · exact h.free_dead q hq hlive

theorem Inv.step (h : s.Inv) {op : DiskOp} (hs : Step s op s') : s'.Inv := by
  cases hs with
  | allocate => exact h.allocate
  | delete p hp => exact h.delete hp
  | write p hp => exact h.write hp

/-- The offset that is handed out is that of the page. -/
theorem Inv.allocatePage_offset (h : s.Inv) :
    s.manager.allocatePage.1 = s.manager.allocatePageNo * s.manager.pageSize := by
  unfold allocatePageNo allocatePage
  cases hf : s.manager.freeSlots with
  | nil => exact (congrArg (· * s.manager.pageSize) (Nat.mul_div_cancel _ h.pageSize)).symm
  | cons o rest => exact h.aligned o (hf ▸ mem_cons_self)

/-- No run makes `allocate_page` return the offset of a live page. -/
theorem allocatePage_notLive (h : s.Opened) {ops : List DiskOp} (run : Steps Step s ops s')
    {p : PageNo} (hp : p ∈ s'.live) : s'.manager.allocatePage.1 ≠ p * s'.manager.pageSize := by
  have hinv : s'.Inv := run.inv (fun _ s => s.Inv) h.inv fun _ _ _ _ hi hs => hi.step hs
  rw [hinv.allocatePage_offset]
  intro heq
  refine hinv.allocatePageNo_notMem ?_
  rw [Nat.eq_of_mul_eq_mul_right hinv.pageSize heq]
  exact hp

/-- A manager of an empty file. -/
def empty : PageUse := ⟨⟨4096, 65536, [], 0, 0⟩, ∅, ∅⟩

/-- Two pages are allocated and the first one is deleted: the next offset is not that of the
second one. -/
theorem allocatePage_notLive_empty :
    ∃ s, Steps Step empty [.allocate, .allocate, .delete 0] s ∧ 1 ∈ s.live ∧
      s.manager.allocatePage.1 ≠ 1 * s.manager.pageSize := by
  have hopen : empty.Opened :=
    ⟨by decide, rfl, Set.Subset.rfl, fun p hp => absurd hp (Set.notMem_empty p)⟩
  have run0 := Steps.nil.snoc (Step.allocate empty)
  have run1 := run0.snoc (Step.allocate _)
  have run2 := run1.snoc (Step.delete _ 0 (.inr (.inl rfl)))
  have hlive : 1 ∈ (insert 1 (insert 0 ∅) : Set PageNo) \ {0} := ⟨.inl rfl, by decide⟩
  exact ⟨_, run2, hlive, allocatePage_notLive hopen run2 hlive⟩

/-- Every page of the file is in use or free, and the file is within the capacity. -/
structure Full (s : PageUse) : Prop where
  inv : s.Inv
  capacity : s.manager.globalPageCount * s.manager.pageSize ≤ s.manager.pageCapacity
  all : ∀ p, p < s.manager.globalPageCount → p ∈ s.live ∨ p ∈ s.manager.freePages

/-- Only live pages are written. -/
def WritesLive (s : PageUse) : DiskOp → Prop
  | .write p => p ∈ s.live
  | _ => True

theorem Full.step {op : DiskOp} (h : s.Full) (hok : WritesLive s op) (hs : Step s op s') : s'.Full := by
  have hinv := h.inv.step hs
  cases hs with
  | allocate =>
    rcases s.manager.allocatePage_cases h.inv.pageSize with ⟨h1, h2, h3⟩ | ⟨h1, -, h3, h4, h5⟩
    · refine ⟨hinv, ?_, fun p hp => ?_⟩
      · simpa [h2, h3] using h.capacity
      · rcases h.all p (Nat.lt_of_lt_of_eq hp h2) with hl | hf
        · exact .inl (.inr hl)
        · rw [h1] at hf
          exact (mem_cons.1 hf).imp .inl id
    · refine ⟨hinv, ?_, fun p hp => .inl ?_⟩
      · simpa [h4] using h5 h.capacity
      · rw [h3]
        rcases Nat.lt_succ_iff_lt_or_eq.1 (Nat.lt_of_lt_of_eq hp h4) with hp | rfl
        · exact .inr ((h.all p hp).resolve_right (by simp [h1]))
        · exact .inl rfl
  | delete p hp =>
    have hin : ¬ p * s.manager.pageSize + s.manager.pageSize > s.manager.pageCapacity := by
      have hle := Nat.mul_le_mul_right s.manager.pageSize (h.inv.used_lt p (h.inv.live_used hp))
      rw [Nat.succ_mul] at hle
      exact Nat.not_lt.2 (Nat.le_trans hle h.capacity)
    have hfree : (s.manager.deletePage p).freePages = p :: s.manager.freePages := by
      unfold DiskManager.deletePage
      rw [if_neg hin]
      exact congrArg (· :: s.manager.freePages) (Nat.mul_div_cancel p h.inv.pageSize)
    refine ⟨hinv, by simpa using h.capacity, fun q hq => ?_⟩
    rw [hfree]
    by_cases hqp : q = p
    · exact .inr (hqp ▸ mem_cons_self)
    · rw [DiskManager.deletePage_globalPageCount] at hq
      exact (h.all q hq).imp (fun hl => ⟨hl, hqp⟩) (mem_cons_of_mem p)
  | write p hp =>
    have hlt := h.inv.used_lt p (h.inv.live_used hok)
    refine ⟨hinv, DiskManager.noteWrite_capacity p h.capacity, fun q hq => ?_⟩
    have hmax : (s.manager.noteWrite p).globalPageCount = s.manager.globalPageCount :=
      Nat.max_eq_left hlt
    exact (h.all q (Nat.lt_of_lt_of_eq hq hmax)).imp .inr id

/-- No run loses a page: those below the page count that are not live wait to be handed out again,
and the file grows only when all its pages are live. -/
theorem pages_accounted (h : s.Opened) (hcap : s.manager.globalPageCount * s.manager.pageSize ≤
      s.manager.pageCapacity) (hall : ∀ p, p < s.manager.globalPageCount → p ∈ s.live)
    {ops : List DiskOp} (run : Steps (guarded WritesLive Step) s ops s') :
    (∀ p, p < s'.manager.globalPageCount ↔ Xor (p ∈ s'.live) (p ∈ s'.manager.freePages)) ∧
      (s'.manager.afterAllocate.globalPageCount ≠ s'.manager.globalPageCount →
        ∀ p, p < s'.manager.globalPageCount → p ∈ s'.live) := by
  have hf : s'.Full := run.inv (fun _ s => s.Full) ⟨h.inv, hcap, fun p hp => .inl (hall p hp)⟩
    fun _ _ _ _ hi hs => hi.step hs.1 hs.2
  constructor
  · intro p
    constructor
    · intro hp
      rcases hf.all p hp with hl | hfree
      · exact .inl ⟨hl, fun hfree => hf.inv.free_dead p hfree hl⟩
      · exact .inr ⟨hfree, hf.inv.free_dead p hfree⟩
    · rintro (⟨hl, -⟩ | ⟨hfree, -⟩)
      · exact hf.inv.used_lt p (hf.inv.live_used hl)
      · exact hf.inv.free_lt p hfree
  · intro hne p hp
    rcases s'.manager.allocatePage_cases hf.inv.pageSize with ⟨-, h2, -⟩ | ⟨h1, -⟩
    · exact absurd h2 hne
    · exact (hf.all p hp).resolve_right (by simp [h1])

/-- A page is allocated and deleted: it is free. -/
theorem pages_accounted_empty : ∃ s, Steps (guarded WritesLive Step) empty [.allocate, .delete 0] s ∧
    Xor (0 ∈ s.live) (0 ∈ s.manager.freePages) := by
  have hopen : empty.Opened :=
    ⟨by decide, rfl, Set.Subset.rfl, fun p hp => absurd hp (Set.notMem_empty p)⟩
  have run := Steps.nil.snoc (show guarded WritesLive Step empty .allocate _ from ⟨trivial, .allocate empty⟩)
  have hlive : 0 ∈ (insert empty.manager.allocatePageNo empty.live : Set PageNo) := .inl rfl
  have run' := run.snoc (show guarded WritesLive Step _ (.delete 0) _ from
    ⟨trivial, .delete _ 0 hlive⟩)
  have h := pages_accounted hopen (by decide) (fun p hp => absurd hp (Nat.not_lt_zero p)) run'
  exact ⟨_, run', (h.1 0).1 (by decide)⟩

end PageUse

/-! ## The file -/

/-- A byte file without bound; what lies beyond its size reads as zero once the file grows. -/
structure ByteFile where
  size : Nat
  bytes : Nat → Nat

namespace ByteFile

/-- The empty file. -/
def empty : ByteFile := ⟨0, fun _ => 0⟩

/-- `pwrite`. -/
def pwrite (f : ByteFile) (data : List Nat) (offset : Nat) : ByteFile :=
  ⟨max f.size (offset + data.length), fun i =>
    if offset ≤ i ∧ i < offset + data.length then data.getD (i - offset) 0 else f.bytes i⟩

/-- `pread`: as many bytes as the file has. -/
def pread (f : ByteFile) (count offset : Nat) : List Nat :=
  (List.range (min count (f.size - offset))).map fun i => f.bytes (offset + i)

/-- `fallocate` with mode 0 from the start of the file. -/
def fallocate (f : ByteFile) (length : Nat) : ByteFile := { f with size := max f.size length }

variable (f : ByteFile) (data : List Nat)

/-- What has been written is read. -/
theorem pread_pwrite_self (offset : Nat) :
    (f.pwrite data offset).pread data.length offset = data := by
  have hmin : min data.length ((f.pwrite data offset).size - offset) = data.length := by
    unfold pwrite
    dsimp only
    omega
  unfold pread
  rw [hmin]
  refine ext_getElem (by simp) fun i h1 h2 => ?_
  rw [getElem_map, getElem_range]
  unfold pwrite
  dsimp only
  rw [if_pos ⟨Nat.le_add_right _ _, Nat.add_lt_add_left h2 _⟩, Nat.add_sub_cancel_left,
    getD_eq_getElem?_getD, getElem?_eq_getElem h2, Option.getD_some]

/-- A stretch of the file that is there stays when something else is written. -/
theorem pread_pwrite_ne {offset count at_ : Nat} (hsize : at_ + count ≤ f.size)
    (hdisj : at_ + count ≤ offset ∨ offset + data.length ≤ at_) :
    (f.pwrite data offset).pread count at_ = f.pread count at_ := by
  have hmin : min count (f.size - at_) = count := by omega
  have hmin' : min count ((f.pwrite data offset).size - at_) = count := by
    unfold pwrite
    dsimp only
    omega
  unfold pread
  rw [hmin, hmin']
  refine map_congr_left fun i hi => ?_
  have hlt := mem_range.1 hi
  unfold pwrite
  dsimp only
  exact if_neg fun hc => by omega

theorem pread_fallocate (f : ByteFile) {count offset : Nat} (hsize : offset + count ≤ f.size)
    (length : Nat) : (f.fallocate length).pread count offset = f.pread count offset := by
  have hmin : min count (f.size - offset) = count := by omega
  have hmin' : min count ((f.fallocate length).size - offset) = count := by
    unfold fallocate
    dsimp only
    omega
  unfold pread
  rw [hmin, hmin']
  rfl

end ByteFile

/-! ## Reads and writes -/

/-- A manager and its file. -/
structure PageFile where
  manager : DiskManager
  file : ByteFile

namespace PageFile

/-- The constructor on an empty file: the capacity starts with a default size. -/
def create (pageSize defaultSize : Nat) : PageFile := ⟨⟨pageSize, defaultSize, [], 0, 0⟩, .empty⟩

/-- `write_page`; the space is allocated first where the system has `fallocate`. -/
def writePage (linux : Bool) (s : PageFile) (p : PageNo) (data : List Nat) : PageFile :=
  let manager := s.manager.noteWrite p
  let file := if linux ∧ p * s.manager.pageSize + s.manager.pageSize > s.manager.pageCapacity
    then s.file.fallocate manager.pageCapacity else s.file
  ⟨manager, file.pwrite data (p * s.manager.pageSize)⟩

/-- `read_page`: zeros beyond the capacity and for what the file does not have. -/
def readPage (s : PageFile) (p : PageNo) : List Nat :=
  if p * s.manager.pageSize + s.manager.pageSize > s.manager.pageCapacity then
    List.replicate s.manager.pageSize 0
  else
    let bytes := s.file.pread s.manager.pageSize (p * s.manager.pageSize)
    bytes ++ List.replicate (s.manager.pageSize - bytes.length) 0

end PageFile

/-- The operations of a run. -/
inductive FileOp where
  | allocate
  | delete (pageNo : PageNo)
  | write (pageNo : PageNo) (data : List Nat)
  | read (pageNo : PageNo)

/-- A page buffer has the size of a page. -/
def FileOp.Sized (pageSize : Nat) : FileOp → Prop
  | .write _ data => data.length = pageSize
  | _ => True

namespace PageFile

/-- One operation. -/
def step (linux : Bool) (s : PageFile) : FileOp → PageFile
  | .allocate => { s with manager := s.manager.afterAllocate }
  | .delete p => { s with manager := s.manager.deletePage p }
  | .write p data => s.writePage linux p data
  | .read _ => s

/-- A run of operations. -/
def run (linux : Bool) (s : PageFile) (ops : List FileOp) : PageFile := ops.foldl (step linux) s

end PageFile

/-- The data of the last `write_page` of a page. -/
def lastWritten (ops : List FileOp) (p : PageNo) : Option (List Nat) :=
  ops.foldl (fun last op => match op with
    | .write q data => if q = p then some data else last
    | _ => last) none

namespace PageFile

/-- The pages below the page count are within the capacity, and a written page is one of them and
in the file. -/
structure Holds (pageSize : Nat) (s : PageFile) (written : PageNo → Option (List Nat)) : Prop where
  size : s.manager.pageSize = pageSize
  capacity : s.manager.globalPageCount * pageSize ≤ s.manager.pageCapacity
  counted : ∀ p data, written p = some data → p < s.manager.globalPageCount
  inFile : ∀ p data, written p = some data → p * pageSize + pageSize ≤ s.file.size
  bytes : ∀ p data, written p = some data → s.file.pread pageSize (p * pageSize) = data

variable {pageSize : Nat} {s : PageFile} {written : PageNo → Option (List Nat)} {linux : Bool}

theorem holds_create (pageSize defaultSize : Nat) :
    (create pageSize defaultSize).Holds pageSize fun _ => none := by
  refine ⟨rfl, ?_, ?_, ?_, ?_⟩
  · show 0 * pageSize ≤ defaultSize
    rw [Nat.zero_mul]
    exact Nat.zero_le _
  · exact fun _ _ h => by cases h
  · exact fun _ _ h => by cases h
  · exact fun _ _ h => by cases h

theorem Holds.allocate (h : s.Holds pageSize written) (hs : 0 < pageSize) :
    ({ s with manager := s.manager.afterAllocate } : PageFile).Holds pageSize written := by
  have hpos : 0 < s.manager.pageSize := h.size ▸ hs
  have hcap := h.capacity
  refine ⟨by rw [afterAllocate_pageSize]; exact h.size, ?_, ?_, h.inFile, h.bytes⟩
  · rcases s.manager.allocatePage_cases hpos with ⟨-, hcount, hc⟩ | ⟨-, -, -, hcount, hc⟩
    · rw [hcount, hc]
      exact hcap
    · rw [h.size] at hc
      rw [hcount]
      exact hc hcap
  · intro p data hp
    have hlt := h.counted p data hp
    rcases s.manager.allocatePage_cases hpos with ⟨-, hcount, -⟩ | ⟨-, -, -, hcount, -⟩
    · rw [hcount]
      exact hlt
    · rw [hcount]
      exact lt_succ_of_lt hlt

theorem Holds.delete (h : s.Holds pageSize written) (p : PageNo) :
    ({ s with manager := s.manager.deletePage p } : PageFile).Holds pageSize written := by
  refine ⟨?_, ?_, ?_, h.inFile, h.bytes⟩
  · rw [deletePage_pageSize]
    exact h.size
  · rw [deletePage_globalPageCount, deletePage_pageCapacity]
    exact h.capacity
  · intro q data hq
    rw [deletePage_globalPageCount]
    exact h.counted q data hq

/-- Different pages do not overlap. -/
theorem pages_disjoint {p q : PageNo} (h : p ≠ q) (size : Nat) :
    q * size + size ≤ p * size ∨ p * size + size ≤ q * size := by
  rcases Nat.lt_or_gt_of_ne h with hlt | hlt
  · right
    have hle := Nat.mul_le_mul_right size hlt
    rwa [succ_mul] at hle
  · left
    have hle := Nat.mul_le_mul_right size hlt
    rwa [succ_mul] at hle

theorem Holds.write (h : s.Holds pageSize written) (p : PageNo) {data : List Nat}
    (hd : data.length = pageSize) :
    (s.writePage linux p data).Holds pageSize (update written p (some data)) := by
  -- the file before the page is written
  obtain ⟨f, hf, hfile, hpread⟩ : ∃ f : ByteFile,
      (s.writePage linux p data).file = f.pwrite data (p * pageSize) ∧ s.file.size ≤ f.size ∧
        ∀ q, q * pageSize + pageSize ≤ s.file.size →
          f.pread pageSize (q * pageSize) = s.file.pread pageSize (q * pageSize) := by
    unfold writePage
    rw [h.size]
    dsimp only
    split
    · exact ⟨_, rfl, Nat.le_max_left _ _, fun q hq => s.file.pread_fallocate hq _⟩
    · exact ⟨_, rfl, Nat.le_refl _, fun _ _ => rfl⟩
  have hsize : (s.writePage linux p data).file.size = max f.size (p * pageSize + data.length) := by
    rw [hf]
    rfl
  refine ⟨h.size, ?_, fun q d hq => ?_, fun q d hq => ?_, fun q d hq => ?_⟩
  · have hcap := h.capacity
    rw [← h.size] at hcap ⊢
    exact noteWrite_capacity p hcap
  · by_cases hqp : q = p
    · subst hqp
      exact Nat.lt_of_lt_of_le (lt_succ_self q) (Nat.le_max_right _ _)
    · rw [update_of_ne hqp] at hq
      exact Nat.lt_of_lt_of_le (h.counted q d hq) (Nat.le_max_left _ _)
  · rw [hsize]
    by_cases hqp : q = p
    · subst hqp
      rw [hd]
      exact Nat.le_max_right _ _
    · rw [update_of_ne hqp] at hq
      exact Nat.le_trans (Nat.le_trans (h.inFile q d hq) hfile) (Nat.le_max_left _ _)
  · rw [hf]
    by_cases hqp : q = p
    · subst hqp
      rw [update_self] at hq
      cases hq
      rw [← hd]
      exact f.pread_pwrite_self data _
    · rw [update_of_ne hqp] at hq
      have hin := h.inFile q d hq
      rw [f.pread_pwrite_ne data (Nat.le_trans hin hfile), hpread q hin]
      · exact h.bytes q d hq
      · rw [hd]
        exact pages_disjoint (Ne.symm hqp) pageSize

theorem lastWritten_concat (ops : List FileOp) (op : FileOp) : lastWritten (ops ++ [op]) =
    match op with
    | .write p data => update (lastWritten ops) p (some data)
    | _ => lastWritten ops := by
  funext q
  unfold lastWritten
  rw [foldl_append]
  cases op with
  | write p data =>
    dsimp only [foldl_cons, foldl_nil]
    rw [update_apply]
    split_ifs with h1 h2 h2
    · rfl
    · exact absurd h1.symm h2
    · exact absurd h2.symm h1
    · rfl
  | allocate => rfl
  | delete p => rfl
  | read p => rfl

/-- Along a run the file holds the last write of every page. -/
theorem holds_run {pageSize : Nat} (hs : 0 < pageSize) (linux : Bool) (defaultSize : Nat)
    {ops : List FileOp} (hops : ∀ op ∈ ops, op.Sized pageSize) :
    ((create pageSize defaultSize).run linux ops).Holds pageSize (lastWritten ops) := by
  induction ops using reverseRecOn with
  | nil => exact holds_create pageSize defaultSize
  | append_singleton ops op ih =>
    have hi := ih fun x hx => hops x (mem_append_left _ hx)
    have hop := hops op (mem_append_right _ mem_cons_self)
    have hrun : (create pageSize defaultSize).run linux (ops ++ [op]) =
        ((create pageSize defaultSize).run linux ops).step linux op := by
      rw [run, foldl_append]
      rfl
    rw [hrun, lastWritten_concat]
    cases op with
    | allocate => exact hi.allocate hs
    | delete p => exact hi.delete p
    | write p data => exact hi.write p hop
    | read p => exact hi

/-- `read_page` returns the bytes of the last `write_page`. -/
theorem readPage_lastWritten {pageSize : Nat} (hs : 0 < pageSize) (linux : Bool)
    (defaultSize : Nat) {ops : List FileOp} (hops : ∀ op ∈ ops, op.Sized pageSize) {p : PageNo}
    {data : List Nat} (h : lastWritten ops p = some data) :
    ((create pageSize defaultSize).run linux ops).readPage p = data := by
  have hh := holds_run hs linux defaultSize hops
  have hb := hh.bytes p data h
  have hin := hh.inFile p data h
  have hlt : ¬ p * pageSize + pageSize > ((create pageSize defaultSize).run linux
      ops).manager.pageCapacity := by
    have hle := Nat.mul_le_mul_right pageSize (hh.counted p data h)
    rw [Nat.succ_mul] at hle
    exact Nat.not_lt.2 (Nat.le_trans hle hh.capacity)
  have hlen : data.length = pageSize := by
    rw [← hb, ByteFile.pread, List.length_map, List.length_range]
    exact Nat.min_eq_left (Nat.le_sub_of_add_le' hin)
  unfold readPage
  rw [hh.size, if_neg hlt, hb]
  dsimp only
  rw [hlen, Nat.sub_self]
  exact List.append_nil _

/-- The allocation lowers the capacity from 64 to 6 bytes, and page 0 is still read. -/
theorem readPage_lastWritten_lowered :
    ((create 2 64).run true [.write 0 [7, 8], .allocate, .delete 0]).readPage 0 = [7, 8] :=
  readPage_lastWritten (by decide) true 64 (by simp [FileOp.Sized]) rfl

end PageFile

end BwGraph
