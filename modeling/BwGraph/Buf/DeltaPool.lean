import Mathlib.Logic.Function.Basic
import Mathlib.Data.List.Count
import Mathlib.Data.List.Infix
import BwGraph.Io.Delta
import BwGraph.Storage.DiskManager
import BwGraph.Lib.Run

/-
  `buf_pool_t<delta_page_t>` (`buf_pool.cc`) with its frames, pins and replacement policy, under
  the delta chains of `page_map_t` (`page_map.cc`). `BwGraph.Buf.PageMap` takes for granted that a
  page in a chain keeps its frame; here is what the pins do for that.

  A chain is a list of raw frame pointers: the entry holds the first one, every frame the next.
  `buf_page_new` pins the new frame, `alloc_delta_page` unpins it again before it is linked, and
  `fetch_deltas_with_mark` unpins it once more. So the pins are in order (`PinsHold`) exactly in
  the runs that never insert anything (`pinsHold_iff`). The calls are one step each; a reader
  holds its read latch, and with it a pin, over other calls. `pin_count_` is unsigned and read as
  an `int`: it is an integer here.
-/

namespace BwGraph

open Function List Option

/-- A frame of the delta pool; `readers` counts the read latches. -/
structure DeltaFrame where
  pageNo : PageNo
  pinCount : Int
  readers : Nat
  referenced : Bool
  dirty : Bool
  page : DeltaPage
  nextDeltaPage : Option Nat
  deriving DecidableEq

/-- The pool with its file. `lru` is the list from `lru_head_`, `free` the one from `free_head_`. -/
structure DeltaPool where
  frames : Nat → DeltaFrame
  pageTable : PageNo → Option Nat
  lru : List Nat
  free : List Nat
  clockHand : Option Nat
  disk : PageNo → DeltaPage
  diskManager : DiskManager

namespace DeltaPool

/-- Change a frame. -/
def modifyFrame (pool : DeltaPool) (f : Nat) (g : DeltaFrame → DeltaFrame) : DeltaPool :=
  { pool with frames := Function.update pool.frames f (g (pool.frames f)) }

/-! ## The clock -/

/-- `clock_hand_->get_next()`, or the head of the list. -/
def advance (pool : DeltaPool) (hand : Nat) : Nat :=
  ((pool.lru.dropWhile fun f => f ≠ hand)[1]?).getD (pool.lru.head?.getD hand)

/-- The full scan of `find_victim_page`. -/
def fullScan (pool : DeltaPool) : Option Nat :=
  pool.lru.find? fun f => (pool.frames f).pinCount = 0 && (pool.frames f).readers = 0

/-- The loop of `find_victim_page` from the hand on; a round of the list is enough fuel. -/
def clockLoop (start : Nat) : Nat → DeltaPool → Nat → Option Nat × DeltaPool
  | 0, pool, _ => (pool.fullScan, pool)
  | n + 1, pool, hand =>
    let next := pool.advance hand
    let goOn (pool : DeltaPool) : Option Nat × DeltaPool :=
      if next = start then (pool.fullScan, { pool with clockHand := some next })
      else clockLoop start n pool next
    if (pool.frames hand).pinCount > 0 then goOn pool
    else if (pool.frames hand).referenced = false then
      if (pool.frames hand).readers > 0 then goOn pool
      else (some hand, { pool with clockHand := some next })
    else goOn (pool.modifyFrame hand fun fr => { fr with referenced := false })

/-- `find_victim_page`. -/
def findVictimPage (pool : DeltaPool) : Option Nat × DeltaPool :=
  match pool.clockHand.or pool.lru.head? with
  | none => (none, pool)
  | some hand => clockLoop hand (pool.lru.length + 1) pool hand

/-! ## Frames for pages -/

/-- `remove_from_lru_list`. -/
def removeFromLruList (pool : DeltaPool) (f : Nat) : DeltaPool :=
  { pool with
    clockHand := if pool.clockHand = some f then some (pool.advance f) else pool.clockHand
    lru := pool.lru.erase f }

/-- `add_to_lru_head`. -/
def addToLruHead (pool : DeltaPool) (f : Nat) : DeltaPool :=
  { pool with
    clockHand := if pool.lru = [] then some f else pool.clockHand
    lru := f :: pool.lru }

/-- `write_page`. -/
def writePage (pool : DeltaPool) (q : PageNo) (page : DeltaPage) : DeltaPool :=
  { pool with
    disk := Function.update pool.disk q page
    diskManager := pool.diskManager.noteWrite q }

/-- The eviction half of `claim_frame_for_reuse`. -/
def evictFrame (pool : DeltaPool) (f : Nat) : DeltaPool :=
  let q := (pool.frames f).pageNo
  let pool := pool.removeFromLruList f
  let pool := { pool with pageTable := Function.update pool.pageTable q none }
  let pool := pool.addToLruHead f
  if (pool.frames f).dirty then
    (pool.writePage q (pool.frames f).page).modifyFrame f fun fr => { fr with dirty := false }
  else pool

/-- `claim_frame_for_reuse`; `none` when it throws because all pages are pinned. -/
def claimFrameForReuse (pool : DeltaPool) : Option (Nat × DeltaPool) :=
  match pool.free with
  | f :: rest => some (f, { pool with free := rest }.addToLruHead f)
  | [] =>
    match pool.findVictimPage with
    | (none, _) => none
    | (some f, pool) => some (f, pool.evictFrame f)

/-- `page_map.insert`, which keeps an entry that is there. -/
def insertTable (pool : DeltaPool) (q : PageNo) (f : Nat) : DeltaPool :=
  { pool with pageTable := Function.update pool.pageTable q ((pool.pageTable q).or (some f)) }

/-- The lookup of `try_latch_cached_page`. -/
def cached (pool : DeltaPool) (q : PageNo) : Option Nat :=
  (pool.pageTable q).bind fun f => if (pool.frames f).pageNo = q then some f else none

/-- `read_page`: zeros past the capacity of the file. -/
def readPage (pool : DeltaPool) (q : PageNo) : DeltaPage :=
  if q * pool.diskManager.pageSize + pool.diskManager.pageSize > pool.diskManager.pageCapacity then
    ⟨[], .accumulate⟩
  else pool.disk q

/-- Take a read latch, and with it a pin. -/
def rLatch (pool : DeltaPool) (f : Nat) : DeltaPool :=
  pool.modifyFrame f fun fr =>
    { fr with pinCount := fr.pinCount + 1, readers := fr.readers + 1, referenced := true }

/-- Give a read latch back. -/
def rUnlatch (pool : DeltaPool) (f : Nat) : DeltaPool :=
  pool.modifyFrame f fun fr =>
    { fr with pinCount := fr.pinCount - 1, readers := fr.readers - 1 }

/-- `buf_page_read`: the frame, with a read latch. A load keeps the status and the chain pointer
that the frame had. -/
def bufPageRead (pool : DeltaPool) (q : PageNo) : Option (Nat × DeltaPool) :=
  match pool.cached q with
  | some f => some (f, pool.rLatch f)
  | none =>
    match pool.claimFrameForReuse with
    | none => none
    | some (f, pool) =>
      let pool := pool.modifyFrame f fun fr =>
        { fr with
          pageNo := q
          page := { fr.page with records := (pool.readPage q).records } }
      some (f, (pool.insertTable q f).rLatch f)

/-- `buf_page_new` and the release of its write latch; a cached page is latched, and so has no
reader, and returned as it is. -/
def bufPageNew (pool : DeltaPool) (q : PageNo) : Option (Nat × DeltaPool) :=
  match pool.cached q with
  | some f =>
    if (pool.frames f).readers = 0 then
      some (f, pool.modifyFrame f fun fr => { fr with referenced := true })
    else none
  | none =>
    match pool.claimFrameForReuse with
    | none => none
    | some (f, pool) =>
      let pool := pool.modifyFrame f fun fr =>
        { fr with
          pageNo := q
          page := DeltaPage.reinit
          nextDeltaPage := none
          dirty := true
          referenced := true
          pinCount := fr.pinCount + 1 }
      some (f, pool.insertTable q f)

/-- `dec_pin_count`. -/
def decPinCount (pool : DeltaPool) (f : Nat) : DeltaPool :=
  pool.modifyFrame f fun fr => { fr with pinCount := fr.pinCount - 1 }

/-- `alloc_delta_page`. -/
def allocDeltaPage (pool : DeltaPool) : Option (Nat × DeltaPool) :=
  let q := pool.diskManager.allocatePageNo
  let pool := { pool with diskManager := pool.diskManager.afterAllocate }
  (pool.bufPageNew q).map fun r => (r.1, r.2.decPinCount r.1)

/-- `delta_page_t::insert_delta`; `none` is the result `false`. -/
def insertDelta (cfg : Config) (pool : DeltaPool) (f : Nat) (record : DeltaRecord) :
    Option DeltaPool :=
  ((pool.frames f).page.insertDelta cfg record).map fun page =>
    pool.modifyFrame f fun fr => { fr with page := page, dirty := true }

/-- `flush_to_disk`. -/
def flushToDisk (pool : DeltaPool) (f : Nat) : DeltaPool :=
  if (pool.frames f).readers = 0 ∧ (pool.frames f).dirty = true then
    (pool.writePage (pool.frames f).pageNo (pool.frames f).page).modifyFrame f fun fr =>
      { fr with dirty := false }
  else pool

end DeltaPool

/-! ## The chains over the pool -/

/-- The pool with the entries of the page map. `latched` are the frames that readers hold by
number. `linked` and `written` are not in the source: the delta pages that make the chain of an
entry, newest first, and the records that were inserted into a delta page. -/
structure DeltaSys where
  pool : DeltaPool
  heads : PageNo → Option Nat
  latched : Nat → Option Nat
  linked : PageNo → List PageNo
  written : PageNo → List DeltaRecord

namespace DeltaSys

/-- Link a frame in front of the chain of `p`; `set_next_ptr` is called when there is a head. -/
def link (s : DeltaSys) (p : PageNo) (f : Nat) : DeltaSys :=
  let q := (s.pool.frames f).pageNo
  { s with
    pool := s.pool.modifyFrame f fun fr =>
      { fr with nextDeltaPage := (s.heads p).or fr.nextDeltaPage }
    heads := Function.update s.heads p (some f)
    linked := Function.update s.linked p (q :: s.linked p)
    written := Function.update s.written q [] }

/-- `alloc_delta_page` and the link. -/
def pushDeltaPage (s : DeltaSys) (p : PageNo) : Option (Nat × DeltaSys) :=
  s.pool.allocDeltaPage.map fun r => (r.1, { s with pool := r.2 }.link p r.1)

/-- The head of the chain, created when there is none. -/
def headDeltaPage (s : DeltaSys) (p : PageNo) : Option (Nat × DeltaSys) :=
  match s.heads p with
  | some f => some (f, s)
  | none => s.pushDeltaPage p

/-- Insert a record on a page that has room. -/
def insertAt (cfg : Config) (s : DeltaSys) (f : Nat) (record : DeltaRecord) : Option DeltaSys :=
  (s.pool.insertDelta cfg f record).map fun pool =>
    let q := (s.pool.frames f).pageNo
    { s with
      pool := pool
      written := Function.update s.written q (s.written q ++ [record]) }

/-- One record, on the head or on a new page in front of it. -/
def insertRecord (cfg : Config) (p : PageNo) (s : DeltaSys) (record : DeltaRecord) :
    Option DeltaSys :=
  (s.headDeltaPage p).bind fun r =>
    (r.2.insertAt cfg r.1 record).or
      ((r.2.pushDeltaPage p).bind fun r => r.2.insertAt cfg r.1 record)

/-- `page_map_t::insert_delta`: the head is created even for no record. -/
def insertDelta (cfg : Config) (p : PageNo) (s : DeltaSys) (records : List DeltaRecord) :
    Option DeltaSys :=
  (s.headDeltaPage p).bind fun r => records.foldlM (insertRecord cfg p) r.2

/-- `insert_delta_and_get_loc`. -/
def insertDeltaAndGetLoc (cfg : Config) (p : PageNo) (s : DeltaSys) (record : DeltaRecord) :
    Option DeltaSys := s.insertRecord cfg p record

/-- `insert_delta_with_forward`; `forward` is what the forwarder of the entry has for the source. -/
def insertDeltaWithForward (cfg : Config) (p : PageNo) (forward : Option PageNo) (s : DeltaSys)
    (record : DeltaRecord) : Option DeltaSys :=
  s.insertDeltaAndGetLoc cfg (forward.getD p) record

/-- The frames of a chain, with fuel. -/
def walk (pool : DeltaPool) : Nat → Option Nat → Option (List Nat)
  | _, none => some []
  | 0, some _ => none
  | n + 1, some f => (walk pool n (pool.frames f).nextDeltaPage).map (f :: ·)

/-- The frames of the chain of `p`; a chain longer than the pool is a cycle. -/
def chainFrames (s : DeltaSys) (p : PageNo) : Option (List Nat) :=
  walk s.pool (s.pool.lru.length + s.pool.free.length) (s.heads p)

/-- `fetch_deltas_with_mark`; `none` when it does not come to an end. -/
def fetchDeltasWithMark (p : PageNo) (s : DeltaSys) : Option (List DeltaRecord × DeltaSys) :=
  (s.chainFrames p).map fun fs =>
    ((fs.reverse.flatMap fun f => (s.pool.frames f).page.records),
      { s with
        pool := fs.foldl (fun pool f => (pool.modifyFrame f fun fr =>
          { fr with page := { fr.page with status := .consolidate } }).decPinCount f) s.pool
        heads := Function.update s.heads p none
        linked := Function.update s.linked p [] })

/-- Reader `k` reads a page; it follows the location of a record, so the page was allocated. -/
def read (s : DeltaSys) (k : Nat) (q : PageNo) : Option DeltaSys :=
  if s.latched k = none ∧ q < s.pool.diskManager.globalPageCount then
    (s.pool.bufPageRead q).map fun r =>
      { s with pool := r.2, latched := Function.update s.latched k (some r.1) }
  else none

/-- Reader `k` gives its latch back. -/
def unlatch (s : DeltaSys) (k : Nat) : Option DeltaSys :=
  (s.latched k).map fun f =>
    { s with pool := s.pool.rUnlatch f, latched := Function.update s.latched k none }

end DeltaSys

/-- The calls. -/
inductive DeltaCall where
  | insertDelta (p : PageNo) (records : List DeltaRecord)
  | insertDeltaAndGetLoc (p : PageNo) (record : DeltaRecord)
  | insertDeltaWithForward (p : PageNo) (forward : Option PageNo) (record : DeltaRecord)
  | fetchDeltasWithMark (p : PageNo)
  | read (k : Nat) (q : PageNo)
  | unlatch (k : Nat)
  | flush (f : Nat)

/-- One call that returns; evictions are part of the calls that need a frame. -/
def DeltaSys.step (cfg : Config) (s : DeltaSys) : DeltaCall → Option DeltaSys
  | .insertDelta p records => s.insertDelta cfg p records
  | .insertDeltaAndGetLoc p record => s.insertDeltaAndGetLoc cfg p record
  | .insertDeltaWithForward p forward record => s.insertDeltaWithForward cfg p forward record
  | .fetchDeltasWithMark p => (s.fetchDeltasWithMark p).map Prod.snd
  | .read k q => s.read k q
  | .unlatch k => s.unlatch k
  | .flush f => some { s with pool := s.pool.flushToDisk f }

/-- The call inserts delta records. -/
def DeltaCall.Inserts : DeltaCall → Prop
  | .insertDelta _ _ | .insertDeltaAndGetLoc _ _ | .insertDeltaWithForward _ _ _ => True
  | _ => False

/-- The pool as `buf_pool_init` leaves it, with `n` frames, and no chain. -/
def DeltaSys.start (n : Nat) (m : DiskManager) : DeltaSys where
  pool :=
    { frames := fun _ => ⟨0, 0, 0, false, false, ⟨[], .accumulate⟩, none⟩
      pageTable := fun _ => none
      lru := []
      free := List.range n
      clockHand := none
      disk := fun _ => ⟨[], .accumulate⟩
      diskManager := m }
  heads := fun _ => none
  latched := fun _ => none
  linked := fun _ => []
  written := fun _ => []

/-- No pin count is negative, and every page linked from an entry is pinned and in its frame, with
its own number and records. -/
structure PinsHold (s : DeltaSys) : Prop where
  nonneg : ∀ f, 0 ≤ (s.pool.frames f).pinCount
  linked : ∀ p, ∃ fs, s.chainFrames p = some fs ∧
    fs.map (fun f => (s.pool.frames f).pageNo) = s.linked p ∧
    ∀ f ∈ fs, 0 < (s.pool.frames f).pinCount ∧
      s.pool.pageTable (s.pool.frames f).pageNo = some f ∧
      (s.pool.frames f).page.records = s.written (s.pool.frames f).pageNo

/-! ## Pins and read latches -/

namespace DeltaPool

/-- The pools have the same pins and latches, and the same free list. -/
structure SamePins (pool pool' : DeltaPool) : Prop where
  pin : ∀ f, (pool'.frames f).pinCount = (pool.frames f).pinCount
  readers : ∀ f, (pool'.frames f).readers = (pool.frames f).readers
  free : pool'.free = pool.free
  table : ∀ q f, pool'.pageTable q = some f → pool.pageTable q = some f

variable (pool : DeltaPool)

theorem SamePins.refl : pool.SamePins pool :=
  ⟨fun _ => rfl, fun _ => rfl, rfl, fun _ _ h => h⟩

theorem SamePins.trans {pool pool' pool'' : DeltaPool} (h : pool.SamePins pool')
    (h' : pool'.SamePins pool'') : pool.SamePins pool'' :=
  ⟨fun f => (h'.pin f).trans (h.pin f), fun f => (h'.readers f).trans (h.readers f),
    h'.free.trans h.free, fun q f hf => h.table q f (h'.table q f hf)⟩

theorem samePins_modifyFrame (f : Nat) {g : DeltaFrame → DeltaFrame}
    (hpin : ∀ fr, (g fr).pinCount = fr.pinCount) (hread : ∀ fr, (g fr).readers = fr.readers) :
    pool.SamePins (pool.modifyFrame f g) := by
  refine ⟨fun f' => ?_, fun f' => ?_, rfl, fun _ _ h => h⟩
  · by_cases hf : f' = f
    · subst hf
      simp [modifyFrame, hpin]
    · simp [modifyFrame, hf]
  · by_cases hf : f' = f
    · subst hf
      simp [modifyFrame, hread]
    · simp [modifyFrame, hf]

theorem fullScan_pin {pool : DeltaPool} {f : Nat} (h : pool.fullScan = some f) :
    (pool.frames f).pinCount ≤ 0 := by
  have hf := find?_some h
  simp only [Bool.and_eq_true, decide_eq_true_eq] at hf
  omega

/-- The clock moves no pin, and what it finds is not pinned. -/
theorem clockLoop_spec (start n : Nat) (pool : DeltaPool) (hand : Nat) :
    pool.SamePins (clockLoop start n pool hand).2 ∧
      ∀ f, (clockLoop start n pool hand).1 = some f → (pool.frames f).pinCount ≤ 0 := by
  induction n generalizing pool hand with
  | zero => exact ⟨.refl pool, fun f hf => fullScan_pin hf⟩
  | succ n ih =>
    -- from a pool with the same pins on
    have hgo : ∀ pool' : DeltaPool, pool.SamePins pool' →
        pool.SamePins (if pool.advance hand = start then
            (pool'.fullScan, { pool' with clockHand := some (pool.advance hand) })
          else clockLoop start n pool' (pool.advance hand)).2 ∧
        ∀ f, (if pool.advance hand = start then
            (pool'.fullScan, { pool' with clockHand := some (pool.advance hand) })
          else clockLoop start n pool' (pool.advance hand)).1 = some f →
          (pool.frames f).pinCount ≤ 0 := by
      intro pool' hsame
      split_ifs
      · exact ⟨⟨hsame.pin, hsame.readers, hsame.free, hsame.table⟩,
          fun f hf => hsame.pin f ▸ fullScan_pin hf⟩
      · obtain ⟨h1, h2⟩ := ih pool' (pool.advance hand)
        exact ⟨hsame.trans h1, fun f hf => hsame.pin f ▸ h2 f hf⟩
    unfold clockLoop
    split_ifs with h1 h2 h3
    · exact hgo pool (.refl pool)
    · exact hgo pool (.refl pool)
    · refine ⟨⟨fun _ => rfl, fun _ => rfl, rfl, fun _ _ h => h⟩, fun f hf => ?_⟩
      cases hf
      exact Int.not_lt.1 h1
    · exact hgo _ (samePins_modifyFrame pool hand (fun _ => rfl) fun _ => rfl)

theorem findVictimPage_spec {pool pool' : DeltaPool} {f : Nat}
    (h : pool.findVictimPage = (some f, pool')) :
    pool.SamePins pool' ∧ (pool.frames f).pinCount ≤ 0 := by
  unfold findVictimPage at h
  split at h
  · cases h
  · rename_i hand hhand
    obtain ⟨h1, h2⟩ := clockLoop_spec hand (pool.lru.length + 1) pool hand
    rw [h] at h1 h2
    exact ⟨h1, h2 f rfl⟩

theorem samePins_evictFrame (f : Nat) : pool.SamePins (pool.evictFrame f) := by
  have htable : ∀ (q q' : PageNo) (f' : Nat),
      update pool.pageTable q none q' = some f' → pool.pageTable q' = some f' := by
    intro q q' f' h
    by_cases hq : q' = q
    · subst hq
      simp at h
    · simpa [hq] using h
  unfold evictFrame
  simp only
  split_ifs
  · refine SamePins.trans ?_ (samePins_modifyFrame _ f (fun _ => rfl) fun _ => rfl)
    exact ⟨fun _ => rfl, fun _ => rfl, rfl, htable _⟩
  · exact ⟨fun _ => rfl, fun _ => rfl, rfl, htable _⟩

/-- What limits the pins in every run: a pin without a reader is gone before the call ends that
took it. -/
structure PinsLow (pool : DeltaPool) : Prop where
  le : ∀ f, (pool.frames f).pinCount ≤ (pool.frames f).readers
  unused : ∀ f ∈ pool.free, (pool.frames f).pinCount ≤ 0
  nodup : pool.free.Nodup
  table : ∀ q f, pool.pageTable q = some f → f ∉ pool.free

variable {pool pool' : DeltaPool} {f : Nat}

section

variable (h : pool.PinsLow)
include h

theorem PinsLow.same (hs : pool.SamePins pool') : pool'.PinsLow := by
  refine ⟨fun f => ?_, fun f hf => ?_, hs.free ▸ h.nodup, fun q f hq => ?_⟩
  · rw [hs.pin, hs.readers]
    exact h.le f
  · rw [hs.pin]
    exact h.unused f (hs.free ▸ hf)
  · rw [hs.free]
    exact h.table q f (hs.table q f hq)

/-- A claimed frame is not pinned, and nothing else is touched. -/
theorem claimFrameForReuse_spec (hc : pool.claimFrameForReuse = some (f, pool')) :
    pool'.PinsLow ∧ (pool'.frames f).pinCount ≤ 0 ∧ f ∉ pool'.free ∧
      ∀ g, (pool'.frames g).pinCount = (pool.frames g).pinCount ∧
        (pool'.frames g).readers = (pool.frames g).readers := by
  unfold claimFrameForReuse at hc
  split at hc
  · rename_i f0 rest hfree
    cases hc
    have hnd := h.nodup
    rw [hfree] at hnd
    obtain ⟨hf, hnd⟩ := nodup_cons.1 hnd
    refine ⟨⟨h.le, fun g hg => h.unused g (hfree ▸ mem_cons_of_mem _ hg), hnd,
      fun q g hq hg => h.table q g hq (hfree ▸ mem_cons_of_mem _ hg)⟩,
      h.unused f (hfree ▸ mem_cons_self), hf, fun g => ⟨rfl, rfl⟩⟩
  · rename_i hfree
    split at hc
    · cases hc
    · rename_i f0 pool0 hv
      cases hc
      obtain ⟨hs, hpin⟩ := findVictimPage_spec hv
      have hsame := hs.trans (samePins_evictFrame pool0 f)
      refine ⟨h.same hsame, ?_, ?_, fun g => ⟨hsame.pin g, hsame.readers g⟩⟩
      · rw [hsame.pin]
        exact hpin
      · rw [hsame.free, hfree]
        exact not_mem_nil

/-- A change of one frame in use. -/
theorem PinsLow.modifyFrame (hf : f ∉ pool.free) {g : DeltaFrame → DeltaFrame}
    (hg : (g (pool.frames f)).pinCount ≤ (g (pool.frames f)).readers) :
    (pool.modifyFrame f g).PinsLow := by
  refine ⟨fun f' => ?_, fun f' hf' => ?_, h.nodup, h.table⟩
  · by_cases he : f' = f
    · subst he
      simp only [DeltaPool.modifyFrame, update_self]
      exact hg
    · simp only [DeltaPool.modifyFrame, ne_eq, he, not_false_eq_true, update_of_ne]
      exact h.le f'
  · have he : f' ≠ f := fun he => hf (he ▸ hf')
    simp only [DeltaPool.modifyFrame, ne_eq, he, not_false_eq_true, update_of_ne]
    exact h.unused f' hf'

theorem PinsLow.insertTable (hf : f ∉ pool.free) (q : PageNo) : (pool.insertTable q f).PinsLow := by
  refine ⟨h.le, h.unused, h.nodup, fun q' f' hq => ?_⟩
  by_cases he : q' = q
  · subst he
    simp only [DeltaPool.insertTable, update_self] at hq
    cases ht : pool.pageTable q' with
    | none =>
      rw [ht] at hq
      cases hq
      exact hf
    | some g =>
      rw [ht] at hq
      cases hq
      exact h.table q' _ ht
  · simp only [DeltaPool.insertTable, ne_eq, he, not_false_eq_true, update_of_ne] at hq
    exact h.table q' f' hq

theorem cached_not_free {q : PageNo} (hc : pool.cached q = some f) : f ∉ pool.free := by
  obtain ⟨g, hg, hif⟩ := bind_eq_some_iff.1 hc
  split_ifs at hif
  cases hif
  exact h.table q f hg

/-- Losing a pin. -/
theorem PinsLow.decPinCount (f : Nat) : (pool.decPinCount f).PinsLow := by
  refine ⟨fun f' => ?_, fun f' hf' => ?_, h.nodup, h.table⟩
  · by_cases he : f' = f
    · subst he
      have hle := h.le f'
      simp only [DeltaPool.decPinCount, DeltaPool.modifyFrame, update_self]
      omega
    · simp only [DeltaPool.decPinCount, DeltaPool.modifyFrame, ne_eq, he, not_false_eq_true,
        update_of_ne]
      exact h.le f'
  · have hle := h.unused f' hf'
    by_cases he : f' = f
    · subst he
      simp only [DeltaPool.decPinCount, DeltaPool.modifyFrame, update_self]
      omega
    · simp only [DeltaPool.decPinCount, DeltaPool.modifyFrame, ne_eq, he, not_false_eq_true,
        update_of_ne]
      exact hle

end

theorem frames_modifyFrame (pool : DeltaPool) (f : Nat) (g : DeltaFrame → DeltaFrame) :
    (pool.modifyFrame f g).frames f = g (pool.frames f) := update_self _ _ _

/-- The page that `alloc_delta_page` returns is not pinned. -/
theorem allocDeltaPage_spec (h : pool.PinsLow) (ha : pool.allocDeltaPage = some (f, pool')) :
    pool'.PinsLow ∧ (pool'.frames f).pinCount ≤ 0 ∧ f ∉ pool'.free := by
  obtain ⟨⟨f0, pool1⟩, hnew, hr⟩ := map_eq_some_iff.1 ha
  obtain ⟨rfl, rfl⟩ := Prod.mk.inj hr
  simp only at hnew ⊢
  have h0 : ({ pool with diskManager := pool.diskManager.afterAllocate } : DeltaPool).PinsLow :=
    ⟨h.le, h.unused, h.nodup, h.table⟩
  unfold bufPageNew at hnew
  split at hnew
  · -- a cached page is not pinned again
    rename_i f1 hcached
    split_ifs at hnew with hread
    cases hnew
    have hf := cached_not_free h0 hcached
    have hle := h.le f0
    have hread : (pool.frames f0).readers = 0 := hread
    refine ⟨(h0.modifyFrame hf hle).decPinCount f0, ?_, hf⟩
    rw [decPinCount, frames_modifyFrame, frames_modifyFrame]
    simp only
    omega
  · split at hnew
    · cases hnew
    · -- a claimed frame gets a pin, which goes again
      rename_i f1 pool2 hclaim
      cases hnew
      obtain ⟨h2, hpin, hf, -⟩ := claimFrameForReuse_spec h0 hclaim
      have hle := h2.le f0
      set g : DeltaFrame → DeltaFrame := fun fr => { fr with
        pageNo := pool.diskManager.allocatePageNo
        page := DeltaPage.reinit
        nextDeltaPage := none
        dirty := true
        referenced := true
        pinCount := fr.pinCount + 1 } with hg
      have heq : ((pool2.modifyFrame f0 g).insertTable pool.diskManager.allocatePageNo
          f0).decPinCount f0 = (pool2.modifyFrame f0 fun fr =>
            { g fr with pinCount := (g fr).pinCount - 1 }).insertTable
              pool.diskManager.allocatePageNo f0 := by
        simp [decPinCount, insertTable, modifyFrame]
      have hfinal : ((pool2.modifyFrame f0 fun fr =>
          { g fr with pinCount := (g fr).pinCount - 1 }).frames f0).pinCount ≤ 0 := by
        rw [frames_modifyFrame]
        simp only [hg]
        omega
      rw [heq]
      refine ⟨(h2.modifyFrame hf ?_).insertTable hf _, hfinal, hf⟩
      simp only [hg]
      omega

/-- A read takes a latch with its pin. -/
theorem bufPageRead_spec (h : pool.PinsLow) {q : PageNo} (hr : pool.bufPageRead q = some (f, pool')) :
    pool'.PinsLow ∧ ∀ g, (pool'.frames g).pinCount =
      (pool.frames g).pinCount + if g = f then 1 else 0 := by
  have hlatch : ∀ {pool1 : DeltaPool}, pool1.PinsLow → f ∉ pool1.free → (pool1.rLatch f).PinsLow ∧
      ∀ g, ((pool1.rLatch f).frames g).pinCount =
        (pool1.frames g).pinCount + if g = f then 1 else 0 := by
    intro pool1 h1 hf
    have hle := h1.le f
    refine ⟨h1.modifyFrame hf (by simp only; push_cast; omega), fun g => ?_⟩
    by_cases hg : g = f
    · subst hg
      simp [rLatch, DeltaPool.modifyFrame]
    · simp [rLatch, DeltaPool.modifyFrame, hg]
  unfold bufPageRead at hr
  split at hr
  · rename_i f1 hcached
    cases hr
    exact hlatch h (cached_not_free h hcached)
  · split at hr
    · cases hr
    · rename_i f1 pool2 hclaim
      cases hr
      obtain ⟨h2, -, hf, hsame⟩ := claimFrameForReuse_spec h hclaim
      have hload := samePins_modifyFrame pool2 f (g := fun fr => { fr with
        pageNo := q
        page := { fr.page with records := (pool2.readPage q).records } }) (fun _ => rfl)
        fun _ => rfl
      obtain ⟨hlow, hpins⟩ := hlatch ((h2.same hload).insertTable hf q) hf
      refine ⟨hlow, fun g => ?_⟩
      rw [hpins g, ← (hsame g).1, ← hload.pin g]
      rfl

end DeltaPool

/-! ## Insertions leave an unpinned page behind -/

namespace DeltaSys

variable {cfg : Config} {s s' : DeltaSys} {p : PageNo} {f : Nat}

/-- The head of the chain of `p` is not pinned. -/
def Unpinned (s : DeltaSys) (p : PageNo) : Prop :=
  ∃ f, s.heads p = some f ∧ (s.pool.frames f).pinCount ≤ 0

theorem pushDeltaPage_spec (h : s.pool.PinsLow) (hp : s.pushDeltaPage p = some (f, s')) :
    s'.pool.PinsLow ∧ s'.Unpinned p := by
  obtain ⟨⟨f0, pool⟩, ha, hr⟩ := map_eq_some_iff.1 hp
  obtain ⟨rfl, rfl⟩ := Prod.mk.inj hr
  obtain ⟨hlow, hpin, -⟩ := DeltaPool.allocDeltaPage_spec h ha
  have hsame := pool.samePins_modifyFrame f0 (g := fun fr =>
    { fr with nextDeltaPage := (s.heads p).or fr.nextDeltaPage }) (fun _ => rfl) fun _ => rfl
  exact ⟨hlow.same hsame, f0, update_self _ _ _, (hsame.pin f0).symm ▸ hpin⟩

/-- The head is one that was there, or a new one, which is not pinned. -/
theorem headDeltaPage_spec (h : s.pool.PinsLow) (hp : s.headDeltaPage p = some (f, s')) :
    s'.pool.PinsLow ∧ (s.heads p = none ∨ s.Unpinned p → s'.Unpinned p) := by
  unfold headDeltaPage at hp
  cases hh : s.heads p with
  | some f0 =>
    rw [hh] at hp
    cases hp
    exact ⟨h, fun hu => hu.resolve_left (by simp)⟩
  | none =>
    rw [hh] at hp
    obtain ⟨h1, h2⟩ := pushDeltaPage_spec h hp
    exact ⟨h1, fun _ => h2⟩

variable {record : DeltaRecord}

theorem insertAt_spec (h : s.insertAt cfg f record = some s') :
    s.pool.SamePins s'.pool ∧ s'.heads = s.heads := by
  obtain ⟨pool, hi, rfl⟩ := map_eq_some_iff.1 h
  obtain ⟨page, -, rfl⟩ := map_eq_some_iff.1 hi
  have hsame := s.pool.samePins_modifyFrame f (g := fun fr =>
    { fr with page := page, dirty := true }) (fun _ => rfl) fun _ => rfl
  exact ⟨hsame, rfl⟩

theorem Unpinned.insertAt (hu : s.Unpinned p) (h : s.insertAt cfg f record = some s') :
    s'.Unpinned p := by
  obtain ⟨hsame, hheads⟩ := insertAt_spec h
  obtain ⟨g, hg, hpin⟩ := hu
  exact ⟨g, by rw [hheads]; exact hg, by rw [hsame.pin]; exact hpin⟩

/-- A record goes to an unpinned page if the chain was empty or its head unpinned. -/
theorem insertRecord_spec (h : s.pool.PinsLow) (hu : s.heads p = none ∨ s.Unpinned p)
    (hi : s.insertRecord cfg p record = some s') : s'.pool.PinsLow ∧ s'.Unpinned p := by
  obtain ⟨⟨f, s1⟩, hhead, hrest⟩ := bind_eq_some_iff.1 hi
  obtain ⟨h1, hu1⟩ := headDeltaPage_spec h hhead
  rcases or_eq_some_iff.1 hrest with hat | ⟨-, hpush⟩
  · exact ⟨h1.same (insertAt_spec hat).1, (hu1 hu).insertAt hat⟩
  · obtain ⟨⟨g, s2⟩, hpush, hat⟩ := bind_eq_some_iff.1 hpush
    obtain ⟨h2, hu2⟩ := pushDeltaPage_spec h1 hpush
    exact ⟨h2.same (insertAt_spec hat).1, hu2.insertAt hat⟩

theorem insertDelta_spec {records : List DeltaRecord} (h : s.pool.PinsLow)
    (hn : s.heads p = none) (hi : s.insertDelta cfg p records = some s') : s'.Unpinned p := by
  obtain ⟨⟨f, s1⟩, hhead, hrest⟩ := bind_eq_some_iff.1 hi
  obtain ⟨h1, hu1⟩ := headDeltaPage_spec h hhead
  have hu := hu1 (.inl hn)
  simp only at hrest
  clear hi hhead hu1
  induction records generalizing s1 with
  | nil =>
    cases hrest
    exact hu
  | cons r records ih =>
    obtain ⟨s2, h2, hrest⟩ := bind_eq_some_iff.1 hrest
    obtain ⟨hlow, hu2⟩ := insertRecord_spec h1 (.inr hu) h2
    exact ih s2 hrest hlow hu2

/-- An unpinned head is in the chain. -/
theorem Unpinned.not_pinsHold (h : s.Unpinned p) : ¬ PinsHold s := by
  intro hp
  obtain ⟨f, hf, hpin⟩ := h
  obtain ⟨fs, hfs, -, hall⟩ := hp.linked p
  unfold chainFrames at hfs
  rw [hf] at hfs
  cases hn : s.pool.lru.length + s.pool.free.length with
  | zero =>
    rw [hn] at hfs
    cases hfs
  | succ n =>
    rw [hn] at hfs
    obtain ⟨rest, -, rfl⟩ := map_eq_some_iff.1 hfs
    exact absurd (hall f mem_cons_self).1 (Int.not_lt.2 hpin)

/-! ## Runs without insertions -/

/-- Nothing is linked, and the pins are those of the readers. -/
structure Idle (s : DeltaSys) : Prop where
  low : s.pool.PinsLow
  heads : ∀ p, s.heads p = none
  linked : ∀ p, s.linked p = []
  counted : ∃ ks : List Nat, ks.Nodup ∧ (∀ k, k ∈ ks ↔ s.latched k ≠ none) ∧
    ∀ f, (s.pool.frames f).pinCount = ks.countP fun k => s.latched k = some f

theorem idle_start (n : Nat) (m : DiskManager) : Idle (.start n m) :=
  ⟨⟨fun _ => Int.le_refl _, fun _ _ => Int.le_refl _, nodup_range, fun _ _ h => by cases h⟩,
    fun _ => rfl, fun _ => rfl, [], nodup_nil, fun k => by simp [start], fun _ => rfl⟩

theorem Idle.pinsHold (h : Idle s) : PinsHold s := by
  refine ⟨fun f => ?_, fun p => ⟨[], ?_, ?_, fun f hf => absurd hf not_mem_nil⟩⟩
  · obtain ⟨ks, -, -, hc⟩ := h.counted
    rw [hc f]
    exact Int.natCast_nonneg _
  · unfold chainFrames
    rw [h.heads p]
    cases s.pool.lru.length + s.pool.free.length <;> rfl
  · rw [h.linked p]
    rfl

theorem Idle.samePool (h : Idle s) {pool : DeltaPool} (hs : s.pool.SamePins pool) :
    Idle { s with pool := pool } := by
  obtain ⟨ks, hnd, hmem, hc⟩ := h.counted
  exact ⟨h.low.same hs, h.heads, h.linked, ks, hnd, hmem, fun f => by rw [hs.pin]; exact hc f⟩

theorem Idle.read (h : Idle s) {k : Nat} {q : PageNo} (hr : s.read k q = some s') : Idle s' := by
  unfold DeltaSys.read at hr
  split_ifs at hr with hk
  obtain ⟨⟨f, pool⟩, hread, rfl⟩ := map_eq_some_iff.1 hr
  obtain ⟨hlow, hpins⟩ := DeltaPool.bufPageRead_spec h.low hread
  obtain ⟨ks, hnd, hmem, hc⟩ := h.counted
  have hnk : k ∉ ks := fun hm => (hmem k).1 hm hk.1
  have hne : ∀ j ∈ ks, update s.latched k (some f) j = s.latched j := by
    intro j hj
    have hjk : j ≠ k := fun he => hnk (he ▸ hj)
    rw [update_of_ne hjk]
  refine ⟨hlow, h.heads, h.linked, k :: ks, nodup_cons.2 ⟨hnk, hnd⟩, fun j => ?_, fun g => ?_⟩
  · by_cases hj : j = k
    · subst hj
      simp
    · simp only [mem_cons, hj, false_or, ne_eq, not_false_eq_true, update_of_ne]
      exact hmem j
  · have hcount : ks.countP (fun j => update s.latched k (some f) j = some g) =
        ks.countP fun j => s.latched j = some g :=
      countP_congr fun j hj => by rw [hne j hj]
    rw [hpins g, hc g, countP_cons, hcount]
    by_cases hg : g = f
    · simp [hg]
    · simp [hg, Ne.symm hg]

variable (h : Idle s)
include h

theorem Idle.unlatch {k : Nat} (hu : s.unlatch k = some s') : Idle s' := by
  obtain ⟨f, hk, rfl⟩ := map_eq_some_iff.1 hu
  obtain ⟨ks, hnd, hmem, hc⟩ := h.counted
  have hin : k ∈ ks := (hmem k).2 (by rw [hk]; simp)
  have hpin : ∀ g, ((s.pool.rUnlatch f).frames g).pinCount =
      (s.pool.frames g).pinCount - if g = f then 1 else 0 := by
    intro g
    by_cases hg : g = f
    · subst hg
      simp [DeltaPool.rUnlatch, DeltaPool.modifyFrame]
    · simp [DeltaPool.rUnlatch, DeltaPool.modifyFrame, hg]
  have hlow : (s.pool.rUnlatch f).PinsLow := by
    refine ⟨fun g => ?_, fun g hg => ?_, h.low.nodup, h.low.table⟩
    · have hle := h.low.le g
      rw [hpin g]
      by_cases hg : g = f
      · subst hg
        simp only [DeltaPool.rUnlatch, DeltaPool.modifyFrame, update_self, if_true]
        omega
      · simp only [DeltaPool.rUnlatch, DeltaPool.modifyFrame, ne_eq, hg, not_false_eq_true,
          update_of_ne, if_false]
        omega
    · have hle := h.low.unused g hg
      rw [hpin g]
      split_ifs <;> omega
  refine ⟨hlow, h.heads, h.linked, ks.erase k, hnd.erase k, fun j => ?_, fun g => ?_⟩
  · by_cases hj : j = k
    · subst hj
      simp [hnd.not_mem_erase]
    · simp only [ne_eq, hj, not_false_eq_true, update_of_ne]
      rw [mem_erase_of_ne hj]
      exact hmem j
  · have hcount : (ks.erase k).countP (fun j => update s.latched k none j = some g) =
        (ks.erase k).countP fun j => s.latched j = some g :=
      countP_congr fun j hj => by
        rw [update_of_ne fun he => hnd.not_mem_erase (he ▸ hj)]
    have herase := countP_erase (fun j => decide (s.latched j = some g)) ks k
    have hpos : g = f → 0 < ks.countP fun j => s.latched j = some g := fun hg =>
      countP_pos_iff.2 ⟨k, hin, by simp [hk, hg]⟩
    rw [hpin g, hc g, hcount, herase]
    by_cases hg : g = f
    · have h0 := hpos hg
      simp only [hg, if_true, hin, hk, decide_true, and_self] at h0 ⊢
      omega
    · have hne : ¬ f = g := fun he => hg he.symm
      simp [hg, hk, hne]

theorem Idle.fetch {res : List DeltaRecord × DeltaSys} (hf : s.fetchDeltasWithMark p = some res) :
    Idle res.2 := by
  have hnil : s.chainFrames p = some [] := by
    unfold chainFrames
    rw [h.heads p]
    cases s.pool.lru.length + s.pool.free.length <;> rfl
  unfold fetchDeltasWithMark at hf
  rw [hnil] at hf
  cases hf
  obtain ⟨ks, hks⟩ := h.counted
  refine ⟨h.low, fun q => ?_, fun q => ?_, ks, hks⟩
  · by_cases hq : q = p
    · subst hq
      simp
    · simp [hq, h.heads q]
  · by_cases hq : q = p
    · subst hq
      simp
    · simp [hq, h.linked q]

variable {e : DeltaCall}

/-- A call that inserts nothing. -/
theorem Idle.step (he : ¬ e.Inserts) (hs : s.step cfg e = some s') : Idle s' := by
  cases e with
  | insertDelta p records => exact absurd trivial he
  | insertDeltaAndGetLoc p record => exact absurd trivial he
  | insertDeltaWithForward p forward record => exact absurd trivial he
  | fetchDeltasWithMark p =>
    obtain ⟨res, hf, rfl⟩ := map_eq_some_iff.1 hs
    exact h.fetch hf
  | read k q => exact h.read hs
  | unlatch k => exact h.unlatch hs
  | flush f =>
    cases hs
    refine h.samePool ?_
    unfold DeltaPool.flushToDisk
    split_ifs
    · have hwrite : s.pool.SamePins
          (s.pool.writePage (s.pool.frames f).pageNo (s.pool.frames f).page) :=
        ⟨fun _ => rfl, fun _ => rfl, rfl, fun _ _ h => h⟩
      exact hwrite.trans (DeltaPool.samePins_modifyFrame _ f (fun _ => rfl) fun _ => rfl)
    · exact .refl _

/-- A call that inserts leaves an unpinned page in a chain. -/
theorem Idle.inserts (he : e.Inserts) (hs : s.step cfg e = some s') : ¬ PinsHold s' := by
  cases e with
  | insertDelta p records => exact (insertDelta_spec h.low (h.heads p) hs).not_pinsHold
  | insertDeltaAndGetLoc p record =>
    exact (insertRecord_spec h.low (.inl (h.heads p)) hs).2.not_pinsHold
  | insertDeltaWithForward p forward record =>
    exact (insertRecord_spec h.low (.inl (h.heads _)) hs).2.not_pinsHold
  | _ => exact absurd he id

variable {es : List DeltaCall}

theorem Idle.steps (hes : ∀ e ∈ es, ¬ e.Inserts) (hs : runAll (DeltaSys.step cfg) s es = some s') :
    Idle s' := by
  induction es generalizing s with
  | nil =>
    cases hs
    exact h
  | cons e es ih =>
    obtain ⟨s1, h1, hs⟩ := bind_eq_some_iff.1 hs
    obtain ⟨he, hes⟩ := forall_mem_cons.1 hes
    exact ih (h.step he h1) hes hs

/-- In a run that inserts there is a state with an unpinned page in a chain: the one after the
first insertion. -/
theorem Idle.first_insert (hs : runAll (DeltaSys.step cfg) s es = some s')
    (hex : ∃ e ∈ es, e.Inserts) :
    ∃ es1 s1, es1 <+: es ∧ runAll (DeltaSys.step cfg) s es1 = some s1 ∧ ¬ PinsHold s1 := by
  induction es generalizing s with
  | nil =>
    obtain ⟨e, he, -⟩ := hex
    cases he
  | cons e es ih =>
    obtain ⟨s1, h1, hs⟩ := bind_eq_some_iff.1 hs
    by_cases hins : e.Inserts
    · exact ⟨[e], s1, ⟨es, rfl⟩, bind_eq_some_iff.2 ⟨s1, h1, rfl⟩, h.inserts hins h1⟩
    · obtain ⟨e', he', hins'⟩ := hex
      have he' : e' ∈ es := (mem_cons.1 he').resolve_left fun he => hins (he ▸ hins')
      obtain ⟨es1, s2, hpre, hs2, hnot⟩ := ih (h.step hins h1) hs ⟨e', he', hins'⟩
      exact ⟨e :: es1, s2, cons_prefix_cons.2 ⟨rfl, hpre⟩,
        bind_eq_some_iff.2 ⟨s1, h1, hs2⟩, hnot⟩

end DeltaSys

/-- The pins are in order in every state of a run exactly if the run inserts nothing: a linked
page has no pin from the start. -/
theorem pinsHold_iff {cfg : Config} {n : Nat} {m : DiskManager} {es : List DeltaCall}
    {s : DeltaSys} (run : runAll (DeltaSys.step cfg) (.start n m) es = some s) :
    (∀ es1, es1 <+: es → ∀ s1, runAll (DeltaSys.step cfg) (.start n m) es1 = some s1 →
      PinsHold s1) ↔ ∀ e ∈ es, ¬ e.Inserts := by
  constructor
  · intro hall e he hins
    obtain ⟨es1, s1, hpre, hs1, hnot⟩ := (DeltaSys.idle_start n m).first_insert run ⟨e, he, hins⟩
    exact hnot (hall es1 hpre s1 hs1)
  · intro hes es1 hpre s1 hs1
    exact ((DeltaSys.idle_start n m).steps (fun e he => hes e (hpre.subset he)) hs1).pinsHold

/-- Delta pages of 4096 bytes. -/
def deltaConfig : Config := ⟨4096, 4096, 0, 50, 1, 0, false⟩

/-- The run of some calls on a pool of `n` frames over a file of `count` pages. -/
def deltaRun (n count : Nat) (es : List DeltaCall) : Option DeltaSys :=
  runAll (DeltaSys.step deltaConfig) (.start n ⟨4096, count * 4096, [], count, count⟩) es

/-- Insert an edge record of vertex 0 on a CSR page. -/
def insertOn (p : PageNo) : DeltaCall := .insertDeltaAndGetLoc p ⟨.edge, .insert, 0, 1, 0, none⟩

/-- A page is read and an entry without a chain fetched. -/
theorem pinsHold_iff_small : ∃ s, deltaRun 1 1 [.read 0 0, .fetchDeltasWithMark 0, .unlatch 0] =
    some s ∧ PinsHold s := by
  have hsome : (deltaRun 1 1 [.read 0 0, .fetchDeltasWithMark 0, .unlatch 0]).isSome = true := by
    decide +kernel
  obtain ⟨s, hs⟩ := Option.isSome_iff_exists.1 hsome
  refine ⟨s, hs, (pinsHold_iff hs).2 (fun e he hins => ?_) _ (List.prefix_refl _) s hs⟩
  simp only [List.mem_cons, List.not_mem_nil, or_false] at he
  rcases he with rfl | rfl | rfl <;> exact hins

/-- The page that the first insertion links has no pin. -/
theorem insertDelta_unpinned :
    ¬ ∀ (cfg : Config) (n : Nat) (m : DiskManager) (es : List DeltaCall) (s : DeltaSys),
      runAll (DeltaSys.step cfg) (.start n m) es = some s → PinsHold s := by
  intro hall
  have hsome : (deltaRun 2 0 [insertOn 0]).isSome = true := by decide +kernel
  obtain ⟨s, hs⟩ := Option.isSome_iff_exists.1 hsome
  obtain ⟨fs, hfs, -, hpins⟩ := (hall _ _ _ _ s hs).linked 0
  have hchain : (deltaRun 2 0 [insertOn 0]).bind (fun s => s.chainFrames 0) = some [0] := by
    decide +kernel
  have hpin : (deltaRun 2 0 [insertOn 0]).map (fun s => (s.pool.frames 0).pinCount) = some 0 := by
    decide +kernel
  rw [hs] at hchain hpin
  have hfs0 : fs = [0] := Option.some.inj (hfs.symm.trans hchain)
  have hpin0 : (s.pool.frames 0).pinCount = 0 := Option.some.inj hpin
  have hpos := (hpins 0 (hfs0 ▸ List.mem_singleton.2 rfl)).1
  omega

-- fetching takes the count below zero
example : (deltaRun 2 0 [insertOn 0, .fetchDeltasWithMark 0]).map
    (fun s => (s.pool.frames 0).pinCount) = some (-1) := by decide +kernel

-- the only frame is reused while it is linked: the chain of page 0 shows the delta page of page 1
example : (deltaRun 1 0 [insertOn 0, insertOn 1]).map
    (fun s => (s.linked 0, s.heads 0, (s.pool.frames 0).pageNo)) = some ([0], some 0, 1) := by
  decide +kernel

end BwGraph
