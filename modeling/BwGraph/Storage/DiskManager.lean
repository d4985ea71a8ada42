import BwGraph.Common.Type

/-
  The page bookkeeping of `disk_manager_t` (`disk_manager.cc`): allocation from the free slots or
  at the end of the file, lazy deletion, and the counters a write moves. Free slots are byte
  offsets; `freePages` are their page numbers. File contents are kept by the pools
  that use the manager.

  A page that is handed out is one of the free ones or the first one past the end
  (`allocatePage_pageNo`), and it is then neither (`allocatePage_free`).
-/

namespace BwGraph

/-- `disk_manager_t`; the head of `freeSlots` is the back of `free_slots_`. `validPageCount` is what
`get_page_count` returns: only writes move it. -/
structure DiskManager where
  pageSize : Nat
  pageCapacity : Nat
  freeSlots : List Nat
  globalPageCount : Nat
  validPageCount : Nat
  deriving Repr

namespace DiskManager

/-- `allocate_page`: the byte offset of the page. -/
def allocatePage (m : DiskManager) : Nat × DiskManager :=
  match m.freeSlots with
  | offset :: rest => (offset, { m with freeSlots := rest })
  | [] =>
    let currentSize := m.globalPageCount * m.pageSize
    let capacity := if currentSize < m.pageCapacity then currentSize + m.pageSize
      else m.pageCapacity
    (currentSize, { m with
      globalPageCount := m.globalPageCount + 1
      pageCapacity := capacity + m.pageSize })

/-- The page number the callers of `allocate_page` derive from its offset. -/
def allocatePageNo (m : DiskManager) : PageNo := m.allocatePage.1 / m.pageSize

/-- The manager after `allocate_page`. -/
def afterAllocate (m : DiskManager) : DiskManager := m.allocatePage.2

/-- `delete_page`. -/
def deletePage (m : DiskManager) (pageNo : Nat) : DiskManager :=
  let offset := pageNo * m.pageSize
  if offset + m.pageSize > m.pageCapacity then m
  else { m with freeSlots := offset :: m.freeSlots }

/-- The counters `write_page` moves. -/
def noteWrite (m : DiskManager) (pageNo : Nat) : DiskManager :=
  let requiredSize := pageNo * m.pageSize + m.pageSize
  { m with
    pageCapacity := if requiredSize > m.pageCapacity then max requiredSize (m.pageCapacity * 2)
      else m.pageCapacity
    globalPageCount := max m.globalPageCount (pageNo + 1)
    validPageCount := max m.validPageCount (pageNo + 1) }

/-- The page numbers of the free slots. -/
def freePages (m : DiskManager) : List PageNo := m.freeSlots.map (· / m.pageSize)

@[simp] theorem afterAllocate_pageSize (m : DiskManager) :
    m.afterAllocate.pageSize = m.pageSize := by
  unfold afterAllocate allocatePage
  split <;> rfl

variable (m : DiskManager) (p : Nat)

@[simp] theorem deletePage_pageSize : (m.deletePage p).pageSize = m.pageSize := by
  unfold deletePage
  simp only
  split_ifs <;> rfl

@[simp] theorem deletePage_globalPageCount :
    (m.deletePage p).globalPageCount = m.globalPageCount := by
  unfold deletePage
  simp only
  split_ifs <;> rfl

@[simp] theorem deletePage_pageCapacity : (m.deletePage p).pageCapacity = m.pageCapacity := by
  unfold deletePage
  simp only
  split_ifs <;> rfl

variable {m : DiskManager}

theorem mem_freePages_deletePage (hs : 0 < m.pageSize) {p q : Nat}
    (h : q ∈ (m.deletePage p).freePages) : q = p ∨ q ∈ m.freePages := by
  unfold deletePage at h
  simp only at h
  split_ifs at h
  · exact .inr h
  · rcases List.mem_cons.1 h with h | h
    · exact .inl (h.trans (Nat.mul_div_cancel p hs))
    · exact .inr h

theorem nodup_freePages_deletePage (hs : 0 < m.pageSize) {p : Nat} (hp : p ∉ m.freePages)
    (hn : m.freePages.Nodup) : (m.deletePage p).freePages.Nodup := by
  unfold deletePage
  simp only
  split_ifs
  · exact hn
  · simp only [freePages, List.map_cons, Nat.mul_div_cancel p hs]
    exact List.nodup_cons.2 ⟨hp, hn⟩

theorem noteWrite_capacity (p : Nat) (h : m.globalPageCount * m.pageSize ≤ m.pageCapacity) :
    (m.noteWrite p).globalPageCount * m.pageSize ≤ (m.noteWrite p).pageCapacity := by
  have hp : (p + 1) * m.pageSize = p * m.pageSize + m.pageSize := by rw [Nat.add_mul, Nat.one_mul]
  unfold noteWrite
  simp only
  rcases Nat.le_total m.globalPageCount (p + 1) with hle | hle
  · rw [Nat.max_eq_right hle, hp]
    split_ifs <;> omega
  · rw [Nat.max_eq_left hle]
    split_ifs <;> omega

/-- A page is taken from the free ones, or else from the end of the file. -/
theorem allocatePage_cases (m : DiskManager) (hs : 0 < m.pageSize) :
    (m.freePages = m.allocatePageNo :: m.afterAllocate.freePages ∧
      m.afterAllocate.globalPageCount = m.globalPageCount ∧
      m.afterAllocate.pageCapacity = m.pageCapacity) ∨
    (m.freePages = [] ∧ m.afterAllocate.freePages = [] ∧
      m.allocatePageNo = m.globalPageCount ∧
      m.afterAllocate.globalPageCount = m.globalPageCount + 1 ∧
      (m.globalPageCount * m.pageSize ≤ m.pageCapacity →
        (m.globalPageCount + 1) * m.pageSize ≤ m.afterAllocate.pageCapacity)) := by
  unfold allocatePageNo afterAllocate allocatePage freePages
  cases hf : m.freeSlots with
  | cons o rest => exact .inl ⟨rfl, rfl, rfl⟩
  | nil =>
    refine .inr ⟨rfl, ?_, Nat.mul_div_cancel _ hs, rfl, fun hc => ?_⟩
    · simp
    · simp only [Nat.add_mul, Nat.one_mul]
      split_ifs <;> omega

/-- What is handed out is free or new, and afterwards neither. -/
theorem allocatePage_free (hs : 0 < m.pageSize) (hn : m.freePages.Nodup)
    (hlt : ∀ q ∈ m.freePages, q < m.globalPageCount) :
    m.allocatePageNo ∉ m.afterAllocate.freePages ∧
      (m.allocatePageNo ∈ m.freePages ∨ m.globalPageCount ≤ m.allocatePageNo) ∧
      m.allocatePageNo < m.afterAllocate.globalPageCount ∧
      m.afterAllocate.freePages.Nodup ∧
      (∀ q ∈ m.afterAllocate.freePages, q ∈ m.freePages) ∧
      m.globalPageCount ≤ m.afterAllocate.globalPageCount := by
  rcases m.allocatePage_cases hs with ⟨h1, h2, -⟩ | ⟨h1, h2, h3, h4, -⟩
  · rw [h1] at hn hlt
    obtain ⟨hn1, hn2⟩ := List.nodup_cons.1 hn
    refine ⟨hn1, .inl (h1 ▸ List.mem_cons_self), ?_, hn2, fun q hq => ?_, ?_⟩
    · rw [h2]; exact hlt _ List.mem_cons_self
    · rw [h1]; exact List.mem_cons_of_mem _ hq
    · exact Nat.le_of_eq h2.symm
  · rw [h2, h3, h4]
    exact ⟨by simp, .inr (Nat.le_refl _), Nat.lt_succ_self _, by simp, by simp, Nat.le_succ _⟩

end DiskManager

end BwGraph
