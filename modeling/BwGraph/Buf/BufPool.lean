import Mathlib.Logic.Function.Basic
import BwGraph.Io.Csr
import BwGraph.Storage.DiskManager

/-
  `buf_pool_t<csr_page_t>` (`buf_pool.cc`) over its data file. A frame holds a page and a dirty
  flag; `disk` is the parsed content of the file, all zeros where nothing was written. Which page
  is evicted and when is left open: `evict`, `flush` and `load` may happen at any time.

  `page` is what a reader of a page number sees. While every clean frame agrees with the file
  (`CsrPool.Ok`) none of the three changes what is seen. The list `retired` holds the replaced
  pages whose last version has not been reclaimed yet; `recyclePage` is the completion of the
  reclaim batch, which drops the frame without writing it and frees the page.
-/

namespace BwGraph

open Function

/-- A frame of the pool. -/
structure Frame where
  page : CsrPage
  dirty : Bool

/-- The pool, its file and its disk manager. -/
structure CsrPool where
  frames : PageNo → Option Frame
  disk : PageNo → CsrPage
  diskManager : DiskManager
  retired : List PageNo

namespace CsrPool

/-- `disk_manager_t::read_page`: zeros past the capacity. -/
def readPage (pool : CsrPool) (p : PageNo) : CsrPage :=
  if p * pool.diskManager.pageSize + pool.diskManager.pageSize > pool.diskManager.pageCapacity then
    CsrPage.empty
  else pool.disk p

/-- `disk_manager_t::write_page`. -/
def writePage (pool : CsrPool) (p : PageNo) (data : CsrPage) : CsrPool :=
  { pool with
    disk := Function.update pool.disk p data
    diskManager := pool.diskManager.noteWrite p }

/-- The page `buf_page_read` returns. -/
def page (pool : CsrPool) (p : PageNo) : CsrPage :=
  match pool.frames p with
  | some f => f.page
  | none => pool.readPage p

/-- The cold-page load of `read_page_internal`; a loaded frame is clean. -/
def load (pool : CsrPool) (p : PageNo) : CsrPool :=
  match pool.frames p with
  | some _ => pool
  | none => { pool with frames := Function.update pool.frames p (some ⟨pool.readPage p, false⟩) }

/-- The write-back half of `claim_frame_for_reuse`: a dirty victim is written, a clean one
dropped. -/
def evict (pool : CsrPool) (p : PageNo) : CsrPool :=
  match pool.frames p with
  | none => pool
  | some f =>
    let pool' := if f.dirty then pool.writePage p f.page else pool
    { pool' with frames := Function.update pool'.frames p none }

/-- `csr_page_t::flush_to_disk`. -/
def flush (pool : CsrPool) (p : PageNo) : CsrPool :=
  match pool.frames p with
  | none => pool
  | some f =>
    if f.dirty then
      let pool' := pool.writePage p f.page
      { pool' with frames := Function.update pool'.frames p (some { f with dirty := false }) }
    else pool

/-- `buf_page_cp`, with the page it evicts to get a frame; `none` is the null result. -/
def bufPageCp (pool : CsrPool) (p : PageNo) (data : CsrPage) (victim : Option PageNo) :
    Option CsrPool :=
  match pool.frames p with
  | some _ => none
  | none =>
    let pool' := match victim with
      | some w => pool.evict w
      | none => pool
    some { pool' with frames := Function.update pool'.frames p (some ⟨data, false⟩) }

/-- `mark_dirty` on the frame of a page. -/
def markDirty (pool : CsrPool) (p : PageNo) : CsrPool :=
  match pool.frames p with
  | none => pool
  | some f => { pool with frames := Function.update pool.frames p (some { f with dirty := true }) }

/-- `disk_manager_t::allocate_page` on the file of the pool. -/
def allocatePage (pool : CsrPool) : PageNo × CsrPool :=
  (pool.diskManager.allocatePageNo, { pool with diskManager := pool.diskManager.afterAllocate })

/-- The completion of a reclaim batch: `retire_page`, then `delete_page`. -/
def recyclePage (pool : CsrPool) (p : PageNo) : CsrPool :=
  { pool with
    frames := Function.update pool.frames p none
    diskManager := pool.diskManager.deletePage p
    retired := pool.retired.erase p }

/-! ## What readers see -/

/-- The file is as long as the manager says. -/
structure FileOk (pool : CsrPool) : Prop where
  pageSize : 0 < pool.diskManager.pageSize
  capacity : pool.diskManager.globalPageCount * pool.diskManager.pageSize ≤
    pool.diskManager.pageCapacity
  unwritten : ∀ q, pool.diskManager.globalPageCount ≤ q → pool.disk q = CsrPage.empty

/-- Clean frames agree with the file, and the file is as long as the manager says. -/
structure Ok (pool : CsrPool) : Prop where
  pageSize : 0 < pool.diskManager.pageSize
  capacity : pool.diskManager.globalPageCount * pool.diskManager.pageSize ≤
    pool.diskManager.pageCapacity
  unwritten : ∀ q, pool.diskManager.globalPageCount ≤ q → pool.disk q = CsrPage.empty
  clean : ∀ p f, pool.frames p = some f → f.dirty = false → f.page = pool.disk p

variable {pool : CsrPool}

theorem Ok.file (h : pool.Ok) : pool.FileOk := ⟨h.pageSize, h.capacity, h.unwritten⟩

theorem readPage_eq_disk (h : pool.FileOk) (p : PageNo) : pool.readPage p = pool.disk p := by
  unfold readPage
  split_ifs with hc
  · refine (h.unwritten p ?_).symm
    by_contra hlt
    have hle : p + 1 ≤ pool.diskManager.globalPageCount := Nat.lt_of_not_le hlt
    have := Nat.mul_le_mul_right pool.diskManager.pageSize hle
    rw [Nat.add_mul, Nat.one_mul] at this
    exact absurd (Nat.le_trans this h.capacity) (Nat.not_le.2 hc)
  · rfl

theorem FileOk.writePage (h : pool.FileOk) (p : PageNo) (data : CsrPage) :
    (pool.writePage p data).FileOk := by
  refine ⟨h.pageSize, DiskManager.noteWrite_capacity p h.capacity, ?_⟩
  intro q hq
  have hq' : max pool.diskManager.globalPageCount (p + 1) ≤ q := hq
  have hne : q ≠ p := by omega
  simp only [CsrPool.writePage, update_of_ne hne]
  exact h.unwritten q (by omega)

theorem Ok.writePage (h : pool.Ok) (p : PageNo) (data : CsrPage)
    (hclean : ∀ f, pool.frames p = some f → f.dirty = false → f.page = data) :
    (pool.writePage p data).Ok := by
  obtain ⟨h1, h2, h3⟩ := h.file.writePage p data
  refine ⟨h1, h2, h3, ?_⟩
  intro q f hf hd
  by_cases hq : q = p
  · subst hq
    simpa [CsrPool.writePage] using hclean f hf hd
  · simpa [CsrPool.writePage, hq] using h.clean q f hf hd

variable {p : PageNo} {f : Frame}

theorem page_of_frame (h : pool.frames p = some f) : pool.page p = f.page := by
  simp [page, h]

theorem page_of_no_frame (h : pool.FileOk) (hf : pool.frames p = none) :
    pool.page p = pool.disk p := by
  simp [page, hf, readPage_eq_disk h]

theorem Ok.of_frames (h : pool.Ok) {frames : PageNo → Option Frame}
    (hclean : ∀ p f, frames p = some f → f.dirty = false → f.page = pool.disk p) :
    ({ pool with frames := frames } : CsrPool).Ok :=
  ⟨h.pageSize, h.capacity, h.unwritten, hclean⟩

theorem evict_of_clean (hf : pool.frames p = some f) (hd : f.dirty = false) :
    pool.evict p = { pool with frames := update pool.frames p none } := by
  simp [CsrPool.evict, hf, hd]

theorem evict_of_dirty (hf : pool.frames p = some f) (hd : f.dirty = true) :
    pool.evict p =
      { pool.writePage p f.page with frames := update pool.frames p none } := by
  simp [CsrPool.evict, hf, hd, CsrPool.writePage]

theorem Ok.drop_frame (h : pool.Ok) (p : PageNo) :
    ({ pool with frames := update pool.frames p none } : CsrPool).Ok := by
  refine h.of_frames fun q g hg hgd => ?_
  by_cases hq : q = p
  · subst hq; simp at hg
  · exact h.clean q g (by simpa [hq] using hg) hgd

theorem Ok.writePage_dirty (h : pool.Ok) (hf : pool.frames p = some f) (hd : f.dirty = true) :
    (pool.writePage p f.page).Ok :=
  h.writePage p _ fun g hg hgd => by
    rw [hf] at hg
    cases hg
    simp [hd] at hgd

theorem Ok.evict (h : pool.Ok) (p : PageNo) : (pool.evict p).Ok := by
  cases hf : pool.frames p with
  | none => simpa [CsrPool.evict, hf] using h
  | some f =>
    cases hd : f.dirty with
    | false =>
      rw [evict_of_clean hf hd]
      exact h.drop_frame p
    | true =>
      rw [evict_of_dirty hf hd]
      exact (h.writePage_dirty hf hd).drop_frame p

theorem FileOk.evict (h : pool.FileOk) (p : PageNo) : (pool.evict p).FileOk := by
  cases hf : pool.frames p with
  | none => simpa [CsrPool.evict, hf] using h
  | some f =>
    cases hd : f.dirty with
    | false =>
      rw [evict_of_clean hf hd]
      exact ⟨h.pageSize, h.capacity, h.unwritten⟩
    | true =>
      rw [evict_of_dirty hf hd]
      obtain ⟨h1, h2, h3⟩ := h.writePage p f.page
      exact ⟨h1, h2, h3⟩

/-- Evicting a page changes nothing a reader sees, if its clean frame agrees with the file. -/
theorem page_evict (h : pool.FileOk)
    (hclean : ∀ f, pool.frames p = some f → f.dirty = false → f.page = pool.disk p) (q : PageNo) :
    (pool.evict p).page q = pool.page q := by
  have hok := h.evict p
  cases hf : pool.frames p with
  | none => simp [CsrPool.evict, hf]
  | some f =>
    by_cases hq : q = p
    · subst hq
      have hnone : (pool.evict q).frames q = none := by simp [CsrPool.evict, hf]
      rw [page_of_no_frame hok hnone, page_of_frame hf]
      cases hd : f.dirty with
      | false => simp [CsrPool.evict, hf, hd, hclean f hf hd]
      | true => simp [CsrPool.evict, hf, hd, CsrPool.writePage]
    · have hframe : (pool.evict p).frames q = pool.frames q := by
        cases hd : f.dirty <;> simp [CsrPool.evict, hf, hd, hq, CsrPool.writePage]
      have hdisk : (pool.evict p).disk q = pool.disk q := by
        cases hd : f.dirty <;> simp [CsrPool.evict, hf, hd, hq, CsrPool.writePage]
      cases hg : pool.frames q with
      | none => rw [page_of_no_frame hok (hframe.trans hg), page_of_no_frame h hg, hdisk]
      | some g => rw [page_of_frame (hframe.trans hg), page_of_frame hg]

variable {pool' : CsrPool}

/-- Two pools that agree on frames and file show the same pages. -/
theorem page_congr (h : pool.FileOk) (h' : pool'.FileOk) {q : PageNo}
    (hf : pool'.frames q = pool.frames q) (hd : pool'.disk q = pool.disk q) :
    pool'.page q = pool.page q := by
  cases hg : pool.frames q with
  | none => rw [page_of_no_frame h' (hf.trans hg), page_of_no_frame h hg, hd]
  | some g => rw [page_of_frame (hf.trans hg), page_of_frame hg]

theorem Ok.set_frame (h : pool.Ok) (hf : f.dirty = false → f.page = pool.disk p) :
    ({ pool with frames := update pool.frames p (some f) } : CsrPool).Ok := by
  refine h.of_frames fun q g hg hgd => ?_
  by_cases hq : q = p
  · subst hq
    simp only [update_self, Option.some.injEq] at hg
    subst hg
    exact hf hgd
  · exact h.clean q g (by simpa [hq] using hg) hgd

theorem Ok.load (h : pool.Ok) (p : PageNo) : (pool.load p).Ok := by
  unfold CsrPool.load
  split
  · exact h
  · exact h.set_frame fun _ => readPage_eq_disk h.file p

theorem FileOk.load (h : pool.FileOk) (p : PageNo) : (pool.load p).FileOk := by
  unfold CsrPool.load
  split
  · exact h
  · exact ⟨h.pageSize, h.capacity, h.unwritten⟩

/-- Loading a page changes nothing a reader sees. -/
theorem page_load (h : pool.FileOk) (p q : PageNo) : (pool.load p).page q = pool.page q := by
  cases hf : pool.frames p with
  | some f => simp [CsrPool.load, hf]
  | none =>
    by_cases hq : q = p
    · subst hq
      have hfr : (pool.load q).frames q = some ⟨pool.readPage q, false⟩ := by
        simp [CsrPool.load, hf]
      rw [page_of_frame hfr, page_of_no_frame h hf]
      exact readPage_eq_disk h q
    · exact page_congr h (h.load p) (by simp [CsrPool.load, hf, hq]) (by simp [CsrPool.load, hf])

theorem flush_of_dirty (hf : pool.frames p = some f) (hd : f.dirty = true) :
    pool.flush p = { pool.writePage p f.page with
      frames := update pool.frames p (some { f with dirty := false }) } := by
  simp [CsrPool.flush, hf, hd, CsrPool.writePage]

theorem Ok.flush (h : pool.Ok) (p : PageNo) : (pool.flush p).Ok := by
  cases hf : pool.frames p with
  | none => simpa [CsrPool.flush, hf] using h
  | some f =>
    cases hd : f.dirty with
    | false => simpa [CsrPool.flush, hf, hd] using h
    | true =>
      rw [flush_of_dirty hf hd]
      exact (h.writePage_dirty hf hd).set_frame fun _ => by simp [CsrPool.writePage]

theorem FileOk.flush (h : pool.FileOk) (p : PageNo) : (pool.flush p).FileOk := by
  cases hf : pool.frames p with
  | none => simpa [CsrPool.flush, hf] using h
  | some f =>
    cases hd : f.dirty with
    | false => simpa [CsrPool.flush, hf, hd] using h
    | true =>
      rw [flush_of_dirty hf hd]
      obtain ⟨h1, h2, h3⟩ := h.writePage p f.page
      exact ⟨h1, h2, h3⟩

/-- Flushing a page changes nothing a reader sees. -/
theorem page_flush (h : pool.FileOk) (p q : PageNo) : (pool.flush p).page q = pool.page q := by
  cases hf : pool.frames p with
  | none => simp [CsrPool.flush, hf]
  | some f =>
    cases hd : f.dirty with
    | false => simp [CsrPool.flush, hf, hd]
    | true =>
      by_cases hq : q = p
      · subst hq
        have hfr : (pool.flush q).frames q = some { f with dirty := false } := by
          rw [flush_of_dirty hf hd]; simp
        rw [page_of_frame hfr, page_of_frame hf]
      · refine page_congr h (h.flush p) ?_ ?_
        · rw [flush_of_dirty hf hd]; simp [hq]
        · rw [flush_of_dirty hf hd]; simp [CsrPool.writePage, hq]

theorem Ok.allocatePage (h : pool.Ok) : pool.allocatePage.2.Ok := by
  refine ⟨by simpa [CsrPool.allocatePage] using h.pageSize, ?_, ?_, h.clean⟩
  · show pool.diskManager.afterAllocate.globalPageCount *
      pool.diskManager.afterAllocate.pageSize ≤ _
    rw [DiskManager.afterAllocate_pageSize]
    rcases pool.diskManager.allocatePage_cases h.pageSize with ⟨-, h2, h3⟩ | ⟨-, -, -, h4, h5⟩
    · rw [h2]
      exact h3 ▸ h.capacity
    · rw [h4]
      exact h5 h.capacity
  · intro q hq
    have hq' : pool.diskManager.afterAllocate.globalPageCount ≤ q := hq
    refine h.unwritten q (Nat.le_trans ?_ hq')
    rcases pool.diskManager.allocatePage_cases h.pageSize with ⟨-, h2, -⟩ | ⟨-, -, -, h4, -⟩
    · exact Nat.le_of_eq h2.symm
    · rw [h4]; exact Nat.le_succ _

theorem page_allocatePage (h : pool.Ok) (q : PageNo) : pool.allocatePage.2.page q = pool.page q :=
  page_congr h.file h.allocatePage.file rfl rfl

/-- `pool'` shows the same pages and has the same pages in use as `pool`: what background work
of the pool may do. -/
structure Refreshes (pool pool' : CsrPool) : Prop where
  ok : pool'.Ok
  page : ∀ q, pool'.page q = pool.page q
  freePages : pool'.diskManager.freePages = pool.diskManager.freePages
  globalPageCount : pool.diskManager.globalPageCount ≤ pool'.diskManager.globalPageCount
  retired : pool'.retired = pool.retired

theorem Refreshes.refl (h : pool.Ok) : pool.Refreshes pool :=
  ⟨h, fun _ => rfl, rfl, Nat.le_refl _, rfl⟩

section

variable (h : pool.Ok) (p : PageNo)
include h

theorem refreshes_evict : pool.Refreshes (pool.evict p) := by
  cases hf : pool.frames p with
  | none => simpa [CsrPool.evict, hf] using Refreshes.refl h
  | some f =>
    have hp := page_evict h.file (h.clean p)
    have hok := h.evict p
    cases hd : f.dirty with
    | false =>
      rw [evict_of_clean hf hd] at hp hok ⊢
      exact ⟨hok, hp, rfl, Nat.le_refl _, rfl⟩
    | true =>
      rw [evict_of_dirty hf hd] at hp hok ⊢
      exact ⟨hok, hp, rfl, Nat.le_max_left _ _, rfl⟩

theorem refreshes_flush : pool.Refreshes (pool.flush p) := by
  cases hf : pool.frames p with
  | none => simpa [CsrPool.flush, hf] using Refreshes.refl h
  | some f =>
    cases hd : f.dirty with
    | false => simpa [CsrPool.flush, hf, hd] using Refreshes.refl h
    | true =>
      have hp := page_flush h.file p
      have hok := h.flush p
      rw [flush_of_dirty hf hd] at hp hok ⊢
      exact ⟨hok, hp, rfl, Nat.le_max_left _ _, rfl⟩

theorem refreshes_load : pool.Refreshes (pool.load p) := by
  refine ⟨h.load p, page_load h.file p, ?_, ?_, ?_⟩ <;> cases hf : pool.frames p <;>
    simp [CsrPool.load, hf]

end

/-- A page copied into the pool and marked dirty is the page seen under its number; nothing else
changes. -/
structure Installs (pool pool' : CsrPool) (p : PageNo) (data : CsrPage) : Prop where
  ok : pool'.Ok
  page_self : pool'.page p = data
  page_ne : ∀ q, q ≠ p → pool'.page q = pool.page q
  freePages : pool'.diskManager.freePages = pool.diskManager.freePages
  globalPageCount : pool.diskManager.globalPageCount ≤ pool'.diskManager.globalPageCount
  retired : pool'.retired = pool.retired

variable {data : CsrPage}

theorem Refreshes.installs {pool1 pool' : CsrPool} (h : pool.Refreshes pool1)
    (hp : pool' = { pool1 with frames := update pool1.frames p (some ⟨data, false⟩) }) :
    pool.Installs (pool'.markDirty p) p data := by
  have hmd : pool'.markDirty p =
      { pool1 with frames := update pool1.frames p (some ⟨data, true⟩) } := by
    subst hp
    simp [CsrPool.markDirty]
  have hok : (pool'.markDirty p).Ok := by
    rw [hmd]
    exact h.ok.set_frame fun hd => by simp at hd
  refine ⟨hok, ?_, fun q hq => ?_, ?_, ?_, ?_⟩
  · rw [hmd]
    exact page_of_frame (f := ⟨data, true⟩) (by simp)
  · rw [← h.page q]
    exact page_congr h.ok.file hok.file (by rw [hmd]; simp [hq]) (by rw [hmd])
  · rw [hmd]; exact h.freePages
  · rw [hmd]; exact h.globalPageCount
  · rw [hmd]; exact h.retired

theorem installs_bufPageCp (h : pool.Ok) {victim : Option PageNo}
    (hcp : pool.bufPageCp p data victim = some pool') :
    pool.Installs (pool'.markDirty p) p data := by
  unfold CsrPool.bufPageCp at hcp
  split at hcp
  · cases hcp
  · cases victim with
    | none => exact (Refreshes.refl h).installs (by simpa using hcp.symm)
    | some w => exact (refreshes_evict h w).installs (by simpa using hcp.symm)

theorem Ok.recyclePage (h : pool.Ok) (p : PageNo) : (pool.recyclePage p).Ok := by
  have h1 := h.drop_frame p
  refine ⟨?_, ?_, ?_, h1.clean⟩
  · simpa [CsrPool.recyclePage] using h.pageSize
  · simpa [CsrPool.recyclePage] using h.capacity
  · simpa [CsrPool.recyclePage] using h.unwritten

theorem page_recyclePage (h : pool.Ok) {p q : PageNo} (hq : q ≠ p) :
    (pool.recyclePage p).page q = pool.page q :=
  page_congr h.file (h.recyclePage p).file (by simp [CsrPool.recyclePage, hq]) rfl

end CsrPool

end BwGraph
