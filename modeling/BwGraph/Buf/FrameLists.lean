import BwGraph.Lib.DList
import BwGraph.Buf.FrameSound

/-
  The lists of `buf_pool_t` as `buf_pool.cc` keeps them: two pointers in every frame, which the LRU
  list and the free list share, the ends of both lists and the clock hand. `while` loops and list
  walks take a number of rounds here and have no result when it runs out or when a null pointer
  would be followed.

  Laid out over lists of frames (`LaidOut`), every call does on the pointers what `FramePool` does
  on the lists (`step_view`), so both lists stay well formed in every run, whatever calls of it end
  in an exception; the clock comes to an end within one round of the LRU list.
-/

namespace BwGraph

open List Option Nat

/-- `buf_pool_t` with the pointers `next_page_` and `prev_page_` of its frames. -/
structure PointerPool (α : Type) where
  frames : Nat → PoolFrame α
  links : Links Nat
  pageMap : PageNo → Option Nat
  lruEnds : Ends Nat
  freeEnds : Ends Nat
  clockHand : Option Nat
  residentPageCount : Nat
  disk : PageNo → α

namespace PointerPool

variable {α : Type}

/-- Change a frame. -/
def modifyFrame (pool : PointerPool α) (f : Nat) (g : PoolFrame α → PoolFrame α) :
    PointerPool α :=
  { pool with frames := Function.update pool.frames f (g (pool.frames f)) }

/-- `try_w_latch` would succeed. -/
def unlatched (pool : PointerPool α) (f : Nat) : Bool :=
  (pool.frames f).readers = 0 && !(pool.frames f).writer

/-- `w_latch`. -/
def wLatch (pool : PointerPool α) (f : Nat) : PointerPool α :=
  pool.modifyFrame f fun fr => { fr with writer := true }

/-- `w_unlatch`. -/
def wUnlatch (pool : PointerPool α) (f : Nat) : PointerPool α :=
  pool.modifyFrame f fun fr => { fr with writer := false }

/-- `r_latch`. -/
def rLatch (pool : PointerPool α) (f : Nat) : PointerPool α :=
  pool.modifyFrame f fun fr =>
    { fr with pinCount := fr.pinCount + 1, readers := fr.readers + 1 }

/-- `set_referenced(true)`. -/
def setReferenced (pool : PointerPool α) (f : Nat) : PointerPool α :=
  pool.modifyFrame f fun fr => { fr with referenced := true }

/-! ## The list primitives -/

/-- `remove_from_free_list`. -/
def removeFromFreeList (pool : PointerPool α) (f : Nat) : PointerPool α :=
  let r := pool.links.unlink pool.freeEnds f
  { pool with links := r.1, freeEnds := r.2 }

/-- `add_to_free_list`. -/
def addToFreeList (pool : PointerPool α) (f : Nat) : PointerPool α :=
  let r := pool.links.pushBack pool.freeEnds f
  { pool with links := r.1, freeEnds := r.2 }

/-- `add_to_lru_head`: the first frame also gets the clock hand. -/
def addToLruHead (pool : PointerPool α) (f : Nat) : PointerPool α :=
  let r := pool.links.pushFront pool.lruEnds f
  { pool with
    links := r.1
    lruEnds := r.2
    clockHand := if pool.lruEnds.head = none then some f else pool.clockHand }

/-- `remove_from_lru_list`. The hand moves before the head does, so that from a last frame it goes
    nowhere. -/
def removeFromLruList (pool : PointerPool α) (f : Nat) : PointerPool α :=
  let clockHand := if pool.clockHand = some f then (pool.links.next f).or pool.lruEnds.head
    else pool.clockHand
  let r := pool.links.unlink pool.lruEnds f
  { pool with links := r.1, lruEnds := r.2, clockHand := clockHand }

/-- `free_list_init`, over the frames of all chunks. -/
def freeListInit (pool : PointerPool α) : PointerPool α :=
  (List.range pool.residentPageCount).foldl addToFreeList { pool with freeEnds := ⟨none, none⟩ }

/-! ## The clock -/

/-- The full scan of `find_victim_page`, from a frame on. -/
def fullScan (pool : PointerPool α) : Nat → Option Nat → Option (Option Nat × PointerPool α)
  | _, none => some (none, pool)
  | 0, some _ => none
  | n + 1, some p =>
    if (pool.frames p).pinCount = 0 && pool.unlatched p then some (some p, pool.wLatch p)
    else pool.fullScan n (pool.links.next p)

/-- The loop of `find_victim_page`, with the hand at a frame. -/
def clockLoop (rounds start : Nat) : Nat → PointerPool α → Nat →
    Option (Option Nat × PointerPool α)
  | 0, _, _ => none
  | n + 1, pool, hand =>
    let next := (pool.links.next hand).or pool.lruEnds.head
    let goOn (pool : PointerPool α) : Option (Option Nat × PointerPool α) :=
      let pool := { pool with clockHand := next }
      if next = some start then pool.fullScan rounds pool.lruEnds.head
      else match next with
        | some h => clockLoop rounds start n pool h
        | none => none
    if (pool.frames hand).pinCount > 0 then goOn pool
    else if (pool.frames hand).referenced = false then
      if pool.unlatched hand = false then goOn pool
      else some (some hand, { pool.wLatch hand with clockHand := next })
    else goOn (pool.modifyFrame hand fun fr => { fr with referenced := false })

/-- `find_victim_page`; it returns with the write latch of the victim. -/
def findVictimPage (rounds : Nat) (pool : PointerPool α) : Option (Option Nat × PointerPool α) :=
  match pool.clockHand.or pool.lruEnds.head with
  | none => some (none, pool)
  | some hand => clockLoop rounds hand rounds { pool with clockHand := some hand } hand

/-! ## Frames for pages -/

/-- `page_map.erase`. -/
def eraseMap (pool : PointerPool α) (q : PageNo) : PointerPool α :=
  { pool with pageMap := Function.update pool.pageMap q none }

/-- `page_map.insert`, which keeps an entry that is there. -/
def insertMap (pool : PointerPool α) (q : PageNo) (f : Nat) : PointerPool α :=
  { pool with pageMap := Function.update pool.pageMap q ((pool.pageMap q).or (some f)) }

/-- The write-back of a dirty victim. -/
def writeBack (pool : PointerPool α) (q : PageNo) (f : Nat) : PointerPool α :=
  if (pool.frames f).dirty then
    { pool with disk := Function.update pool.disk q (pool.frames f).data }.modifyFrame f
      fun fr => { fr with dirty := false }
  else pool

/-- `claim_frame_for_reuse`. -/
def claimFrameForReuse (pool : PointerPool α) : Option (Except PoolError Nat × PointerPool α) :=
  match pool.freeEnds.head with
  | some f =>
    if pool.unlatched f then
      some (.ok f, ((pool.removeFromFreeList f).addToLruHead f).wLatch f)
    else none
  | none =>
    (pool.findVictimPage (pool.residentPageCount + 1)).map fun r =>
      match r with
      | (none, pool) => (.error .allPinned, pool)
      | (some f, pool) =>
        let q := (pool.frames f).pageNo
        (.ok f, ((pool.removeFromLruList f).eraseMap q |>.addToLruHead f).writeBack q f)

/-- The lookup of `try_latch_cached_page`. -/
def cached (pool : PointerPool α) (q : PageNo) : Option Nat :=
  (pool.pageMap q).bind fun f => if (pool.frames f).pageNo = q then some f else none

/-- The latch of `try_latch_cached_page`. -/
def latchCached (pool : PointerPool α) (f : Nat) (writeLatch : Bool) :
    Option (PointerPool α) :=
  if writeLatch then
    if pool.unlatched f then some ((pool.wLatch f).setReferenced f) else none
  else
    if (pool.frames f).writer then none else some ((pool.rLatch f).setReferenced f)

/-- The number and the bytes a load gives the frame. -/
def fill (pool : PointerPool α) (f : Nat) (q : PageNo) (image : α) : PointerPool α :=
  pool.modifyFrame f fun fr => { fr with pageNo := q, data := image }

/-- `w_to_r_latch`. -/
def wToRLatch (pool : PointerPool α) (f : Nat) : PointerPool α :=
  (pool.wUnlatch f).rLatch f

section Calls

variable (ops : PageOps α)

/-- `read_page_internal`. -/
def readPageInternal (pool : PointerPool α) (q : PageNo) (writeLatch ioFails : Bool) :
    Option (Except PoolError Nat × PointerPool α) :=
  match pool.cached q with
  | some f => (pool.latchCached f writeLatch).map fun pool => (.ok f, pool)
  | none =>
    pool.claimFrameForReuse.map fun r =>
      match r with
      | (.error e, pool) => (.error e, pool)
      | (.ok f, pool) =>
        if ioFails then (.error .readPage, pool.wUnlatch f)
        else
          let pool := pool.fill f q (pool.disk q)
          if ops.parses (pool.frames f).data then
            let pool := (pool.setReferenced f).insertMap q f
            (.ok f, if writeLatch then pool else pool.wToRLatch f)
          else (.error .selfParse, pool.wUnlatch f)

/-- `buf_page_cp`. -/
def bufPageCp (pool : PointerPool α) (q : PageNo) (pageData : α) :
    Option (Except PoolError (Option Nat) × PointerPool α) :=
  match pool.pageMap q with
  | some _ => some (.ok none, pool)
  | none =>
    pool.claimFrameForReuse.map fun r =>
      match r with
      | (.error e, pool) => (.error e, pool)
      | (.ok f, pool) =>
        let pool := pool.fill f q pageData
        if ops.parses pageData then
          (.ok (some f), ((pool.setReferenced f).insertMap q f).wUnlatch f)
        else (.error .selfParse, pool)

/-- `buf_page_new`. -/
def bufPageNew (pool : PointerPool α) (q : PageNo) :
    Option (Except PoolError Nat × PointerPool α) :=
  match pool.cached q with
  | some f => (pool.latchCached f true).map fun pool => (.ok f, pool)
  | none =>
    pool.claimFrameForReuse.map fun r =>
      match r with
      | (.error e, pool) => (.error e, pool)
      | (.ok f, pool) =>
        let pool := pool.modifyFrame f fun fr =>
          { fr with
            pageNo := q
            data := ops.reinit fr.data
            dirty := fr.dirty || ops.reinitDirty
            referenced := true
            pinCount := fr.pinCount + 1 }
        (.ok f, pool.insertMap q f)

/-- `retire_page`. -/
def retirePage (pool : PointerPool α) (q : PageNo) : Bool × PointerPool α :=
  match pool.pageMap q with
  | none => (true, pool)
  | some f =>
    if (pool.frames f).pinCount > 0 ∨ pool.unlatched f = false then (false, pool)
    else
      let pool := ((pool.eraseMap q).removeFromLruList f).modifyFrame f fun fr =>
        { fr with dirty := false, referenced := false }
      (true, pool.addToFreeList f)

/-- What a call ends in: an exception, if any, and the pool. -/
def call (pool : PointerPool α) : PoolCall α → Option (Option PoolError × PointerPool α)
  | .bufPageRead q ioFails =>
    (pool.readPageInternal ops q false ioFails).map fun r => (FramePool.call.thrown r.1, r.2)
  | .bufPageReadForSlotWrite q ioFails =>
    (pool.readPageInternal ops q true ioFails).map fun r => (FramePool.call.thrown r.1, r.2)
  | .bufPageNew q => (pool.bufPageNew ops q).map fun r => (FramePool.call.thrown r.1, r.2)
  | .bufPageCp q pageData =>
    (pool.bufPageCp ops q pageData).map fun r => (FramePool.call.thrown r.1, r.2)
  | .retirePage q => some (none, (pool.retirePage q).2)
  | .hold frames disk => some (none, { pool with
      frames := fun f => { frames f with pageNo := (pool.frames f).pageNo }
      disk := disk })

/-- One call, whatever it ends in. -/
def step (pool : PointerPool α) (c : PoolCall α) : Option (PointerPool α) :=
  (pool.call ops c).map Prod.snd

end Calls

/-- `buf_pool_init` with `n` frames. -/
def start (n : Nat) (blank : α) (disk : PageNo → α) : PointerPool α :=
  freeListInit
    { frames := fun _ => ⟨0, 0, 0, false, false, false, blank⟩
      links := ⟨fun _ => none, fun _ => none⟩
      pageMap := fun _ => none
      lruEnds := ⟨none, none⟩
      freeEnds := ⟨none, none⟩
      clockHand := none
      residentPageCount := n
      disk := disk }

/-! ## The lists behind the pointers -/

/-- The pool with lists in place of the pointers. -/
def view (pool : PointerPool α) (lru free : List Nat) : FramePool α :=
  ⟨pool.frames, pool.pageMap, lru, free, pool.clockHand, pool.disk⟩

/-- The pointers lay out the two lists, which hold every frame between them once. -/
structure LaidOut (pool : PointerPool α) (count : Nat) (lru free : List Nat) : Prop where
  resident : pool.residentPageCount = count
  lruList : IsDList pool.links pool.lruEnds lru
  freeList : IsDList pool.links pool.freeEnds free
  frames : (lru ++ free).Perm (List.range count)

variable {pool pool' : PointerPool α} {count : Nat} {lru free : List Nat} {f : Nat}

theorem LaidOut.disjoint (h : pool.LaidOut count lru free) : ∀ f ∈ free, f ∉ lru := by
  have hnd := h.frames.nodup_iff.2 nodup_range
  intro f hf hl
  exact (nodup_append.1 hnd).2.2 f hl f hf rfl

/-- The pointers of the frames and the ends of both lists are the same. -/
structure SameLists (pool pool' : PointerPool α) : Prop where
  links : pool'.links = pool.links
  lruEnds : pool'.lruEnds = pool.lruEnds
  freeEnds : pool'.freeEnds = pool.freeEnds
  resident : pool'.residentPageCount = pool.residentPageCount

theorem SameLists.trans {pool'' : PointerPool α} (h : pool.SameLists pool')
    (h' : pool'.SameLists pool'') : pool.SameLists pool'' :=
  ⟨h'.links.trans h.links, h'.lruEnds.trans h.lruEnds, h'.freeEnds.trans h.freeEnds,
    h'.resident.trans h.resident⟩

theorem SameLists.lruList (h : pool.SameLists pool') (hl : IsDList pool.links pool.lruEnds lru) :
    IsDList pool'.links pool'.lruEnds lru := by
  rw [h.links, h.lruEnds]
  exact hl

theorem LaidOut.congr (h : pool.LaidOut count lru free) (hs : pool.SameLists pool') :
    pool'.LaidOut count lru free := by
  refine ⟨hs.resident.trans h.resident, hs.lruList h.lruList, ?_, h.frames⟩
  rw [hs.links, hs.freeEnds]
  exact h.freeList

/-! ## The primitives on the lists -/

/-- A free frame goes to the head of the LRU list. -/
theorem LaidOut.takeFree (h : pool.LaidOut count lru (f :: free)) :
    ((pool.removeFromFreeList f).addToLruHead f).LaidOut count (f :: lru) free ∧
      ((pool.removeFromFreeList f).addToLruHead f).view (f :: lru) free =
        { pool.view lru (f :: free) with free := free }.addToLruHead f := by
  have hdis := h.disjoint
  have hf : f ∉ lru := hdis f mem_cons_self
  have hff : f ∉ free := (nodup_cons.1 h.freeList.nodup).1
  have herase : (f :: free).erase f = free := erase_cons_head ..
  have hfree := h.freeList.unlink mem_cons_self
  rw [herase] at hfree
  have hlru := h.freeList.unlink_other mem_cons_self h.lruList
    fun y hy hyf => hdis y hyf hy
  refine ⟨⟨h.resident, hlru.pushFront hf, ?_, ?_⟩, ?_⟩
  · exact hlru.pushFront_other hfree hff fun y hy => hdis y (mem_cons_of_mem _ hy)
  · refine List.Perm.trans ?_ h.frames
    rw [cons_append]
    exact (perm_middle).symm
  · have hhand : ((pool.removeFromFreeList f).addToLruHead f).clockHand =
        if lru = [] then some f else pool.clockHand := by
      have hhead : (pool.removeFromFreeList f).lruEnds.head = lru.head? := h.lruList.head
      unfold addToLruHead
      dsimp only
      rw [hhead]
      cases lru <;> rfl
    unfold view
    rw [hhand]
    rfl

/-- The frame after another one, or the head. -/
theorem next_or_head (h : IsDList pool.links pool.lruEnds lru) (hf : f ∈ lru) (free : List Nat) :
    (pool.links.next f).or pool.lruEnds.head = some ((pool.view lru free).advance f) := by
  obtain ⟨a, b, hl, hfa⟩ := eq_append_cons_of_mem hf
  have hlist : (pool.view lru free).lru = a ++ f :: b := hl
  rw [FramePool.advance_eq hlist hfa, (h.links a f b hl).1, h.head, hl]
  cases b with
  | nil => cases a <;> rfl
  | cons c b => rfl

section

variable (h : pool.LaidOut count lru free) (hf : f ∈ lru)
include h hf

theorem LaidOut.view_removeFromLruList :
    (pool.removeFromLruList f).view (lru.erase f) free =
      (pool.view lru free).removeFromLruList f := by
  unfold view FramePool.removeFromLruList removeFromLruList
  rw [next_or_head h.lruList hf free]
  rfl

/-- A frame of the LRU list goes to its head. -/
theorem LaidOut.relink (q : PageNo) :
    (((pool.removeFromLruList f).eraseMap q).addToLruHead f).LaidOut count (f :: lru.erase f) free ∧
      (((pool.removeFromLruList f).eraseMap q).addToLruHead f).view (f :: lru.erase f) free =
        (((pool.view lru free).removeFromLruList f).eraseMap q).addToLruHead f := by
  have hdis := h.disjoint
  have hff : f ∉ free := fun hff => hdis f hff hf
  have hne : f ∉ lru.erase f := h.lruList.nodup.not_mem_erase
  have hlru := h.lruList.unlink hf
  have hfree := h.lruList.unlink_other hf h.freeList hdis
  refine ⟨⟨h.resident, hlru.pushFront hne, ?_, ?_⟩, ?_⟩
  · exact hlru.pushFront_other hfree hff fun y hy hyl => hdis y hy (mem_of_mem_erase hyl)
  · exact ((perm_cons_erase hf).symm.append_right free).trans h.frames
  · have hview := h.view_removeFromLruList hf
    have hhead : ((pool.removeFromLruList f).eraseMap q).lruEnds.head = (lru.erase f).head? :=
      hlru.head
    rw [← hview]
    unfold view FramePool.addToLruHead addToLruHead
    rw [hhead]
    dsimp only [FramePool.eraseMap, eraseMap]
    cases lru.erase f <;> rfl

/-- A frame of the LRU list goes to the end of the free list. -/
theorem LaidOut.giveBack (q : PageNo) (g : PoolFrame α → PoolFrame α) :
    ((((pool.eraseMap q).removeFromLruList f).modifyFrame f g).addToFreeList f).LaidOut count
        (lru.erase f) (free ++ [f]) ∧
      ((((pool.eraseMap q).removeFromLruList f).modifyFrame f g).addToFreeList f).view
        (lru.erase f) (free ++ [f]) =
      { (((pool.view lru free).eraseMap q).removeFromLruList f).modifyFrame f g with
        free := free ++ [f] } := by
  have h0 : (pool.eraseMap q).LaidOut count lru free := h.congr ⟨rfl, rfl, rfl, rfl⟩
  have hdis := h.disjoint
  have hff : f ∉ free := fun hff => hdis f hff hf
  have hne : f ∉ lru.erase f := h.lruList.nodup.not_mem_erase
  have hlru := h.lruList.unlink hf
  have hfree := h.lruList.unlink_other hf h.freeList hdis
  refine ⟨⟨h.resident, ?_, hfree.pushBack hff, ?_⟩, ?_⟩
  · exact hfree.pushBack_other hlru hne hff fun y hy hyf => hdis y hyf (mem_of_mem_erase hy)
  · refine List.Perm.trans ?_ h.frames
    rw [← append_assoc]
    refine (perm_append_comm).trans ?_
    rw [singleton_append, ← cons_append]
    exact (perm_cons_erase hf).symm.append_right free
  · have hview := h0.view_removeFromLruList hf
    have heq : ((pool.view lru free).eraseMap q).removeFromLruList f =
        ((pool.eraseMap q).removeFromLruList f).view (lru.erase f) free := hview.symm
    rw [heq]
    rfl

end

/-- `free_list_init` links the frames in their order. -/
theorem foldl_addToFreeList (l : List Nat) : ∀ (pool : PointerPool α) {acc : List Nat},
    IsDList pool.links pool.freeEnds acc → (acc ++ l).Nodup →
    let pool' := l.foldl addToFreeList pool
    IsDList pool'.links pool'.freeEnds (acc ++ l) ∧ pool'.lruEnds = pool.lruEnds ∧
      pool'.residentPageCount = pool.residentPageCount ∧
      pool'.view [] (acc ++ l) = pool.view [] (acc ++ l) := by
  induction l with
  | nil =>
    intro pool acc h _
    rw [append_nil]
    exact ⟨h, rfl, rfl, rfl⟩
  | cons x l ih =>
    intro pool acc h hnd
    have hx : x ∉ acc := fun hx =>
      (nodup_append.1 hnd).2.2 x hx x mem_cons_self rfl
    have hassoc : acc ++ x :: l = acc ++ [x] ++ l := by simp
    rw [hassoc] at hnd ⊢
    have hpush : IsDList (pool.addToFreeList x).links (pool.addToFreeList x).freeEnds
        (acc ++ [x]) := h.pushBack hx
    exact ih (pool.addToFreeList x) hpush hnd

theorem start_laidOut (n : Nat) (blank : α) (disk : PageNo → α) :
    (start n blank disk).LaidOut n [] (range n) ∧
      (start n blank disk).view [] (range n) = FramePool.start n blank disk := by
  have hnil := IsDList.nil (⟨fun _ => none, fun _ => none⟩ : Links Nat)
  obtain ⟨h1, h2, h3, h4⟩ := foldl_addToFreeList (range n)
    { frames := fun _ => (⟨0, 0, 0, false, false, false, blank⟩ : PoolFrame α)
      links := ⟨fun _ => none, fun _ => none⟩
      pageMap := fun _ => none
      lruEnds := ⟨none, none⟩
      freeEnds := ⟨none, none⟩
      clockHand := none
      residentPageCount := n
      disk := disk } hnil nodup_range
  refine ⟨⟨h3, ?_, h1, List.Perm.refl _⟩, h4⟩
  have hends : (start n blank disk).lruEnds = ⟨none, none⟩ := h2
  rw [hends]
  exact IsDList.nil _

/-! ## The clock on the lists -/

/-- The scan from a frame on visits the rest of the list. -/
theorem fullScan_eq {rest : List Nat} : ∀ {n : Nat} {c : Option Nat} {pool : PointerPool α},
    pool.links.Forward c rest → rest.length ≤ n →
    pool.fullScan n c = some (match rest.find? fun f =>
        (pool.frames f).pinCount = 0 && pool.unlatched f with
      | some f => (some f, pool.wLatch f)
      | none => (none, pool)) := by
  induction rest with
  | nil =>
    rintro n c pool rfl -
    cases n <;> rfl
  | cons x rest ih =>
    rintro n c pool ⟨rfl, hrest⟩ hn
    cases n with
    | zero => simp at hn
    | succ n =>
      rw [fullScan, find?_cons]
      split
      · rename_i hx
        rw [hx]
      · rename_i hx
        rw [Bool.eq_false_iff.2 hx]
        exact ih hrest (by simpa using hn)

/-- The write latch that `find_victim_page` takes on the victim. -/
def withLatch (r : Option Nat × FramePool α) : Option Nat × FramePool α :=
  (r.1, match r.1 with
    | some f => r.2.wLatch f
    | none => r.2)

/-- The lists with another clock hand. -/
def viewAt (pool : PointerPool α) (lru free : List Nat) (c : Option Nat) : FramePool α :=
  ⟨pool.frames, pool.pageMap, lru, free, c, pool.disk⟩

/-- The two pools agree on what the clock does: it ends, without touching a list, and leaves what
    the clock of the lists leaves, with the latch. -/
def SameClock (pool : PointerPool α) (lru free : List Nat)
    (p : Option (Option Nat × PointerPool α)) (q : Option Nat × FramePool α) : Prop :=
  ∃ r pool', p = some (r, pool') ∧ pool.SameLists pool' ∧ (r, pool'.view lru free) = withLatch q

theorem SameClock.of_sameLists {p1 : PointerPool α} (h1 : pool.SameLists p1)
    {p : Option (Option Nat × PointerPool α)} {q : Option Nat × FramePool α}
    (h : p1.SameClock lru free p q) : pool.SameClock lru free p q := by
  obtain ⟨r, p2, hp, h2, hq⟩ := h
  exact ⟨r, p2, hp, h1.trans h2, hq⟩

section

variable (h : IsDList pool.links pool.lruEnds lru) (free : List Nat)
include h

/-- The end of a round: the hand moves to `start`, and the scan from the head begins. -/
theorem endRound {rounds : Nat} (hrounds : lru.length ≤ rounds) (start : Nat) (c : Option Nat) :
    SameClock pool lru free
      ({ pool with clockHand := some start }.fullScan rounds pool.lruEnds.head)
      ((pool.viewAt lru free c).fullScan, pool.viewAt lru free (some start)) := by
  have hscan : (pool.viewAt lru free c).fullScan = lru.find? fun f =>
      (pool.frames f).pinCount = 0 && pool.unlatched f := rfl
  have hwalk : { pool with clockHand := some start }.links.Forward pool.lruEnds.head lru :=
    h.forward
  rw [hscan, fullScan_eq hwalk hrounds]
  have hfind : (lru.find? fun f => ({ pool with clockHand := some start }.frames f).pinCount = 0 &&
      { pool with clockHand := some start }.unlatched f) =
      lru.find? fun f => (pool.frames f).pinCount = 0 && pool.unlatched f := rfl
  rw [hfind]
  cases lru.find? fun f => (pool.frames f).pinCount = 0 && pool.unlatched f with
  | none => exact ⟨_, _, rfl, ⟨rfl, rfl, rfl, rfl⟩, rfl⟩
  | some f => exact ⟨_, _, rfl, ⟨rfl, rfl, rfl, rfl⟩, rfl⟩

/-- One frame of the clock, when going on from it agrees. -/
theorem clockStep {rounds start hand n m : Nat} (hf : hand ∈ lru)
    (hgo : ∀ p1 : PointerPool α, pool.SameLists p1 → ∀ c1, SameClock p1 lru free
        (if (pool.view lru free).advance hand = start then
            { p1 with clockHand := some ((pool.view lru free).advance hand) }.fullScan rounds
              p1.lruEnds.head
          else clockLoop rounds start n
            { p1 with clockHand := some ((pool.view lru free).advance hand) }
            ((pool.view lru free).advance hand))
        (if (pool.view lru free).advance hand = start then
            ((p1.viewAt lru free c1).fullScan,
              p1.viewAt lru free (some ((pool.view lru free).advance hand)))
          else FramePool.clockLoop start m (p1.viewAt lru free c1)
            ((pool.view lru free).advance hand))) (c : Option Nat) :
    SameClock pool lru free (clockLoop rounds start (n + 1) pool hand)
      (FramePool.clockLoop start (m + 1) (pool.viewAt lru free c) hand) := by
  have hadv := next_or_head h hf free
  unfold clockLoop FramePool.clockLoop
  simp only [hadv, Option.some.injEq]
  have hnext : (pool.viewAt lru free c).advance hand = (pool.view lru free).advance hand := rfl
  have hframes : (pool.viewAt lru free c).frames = pool.frames := rfl
  have hlatch : (pool.viewAt lru free c).unlatched hand = pool.unlatched hand := rfl
  rw [hnext, hframes, hlatch]
  split
  · exact hgo pool ⟨rfl, rfl, rfl, rfl⟩ c
  · split
    · split
      · exact hgo pool ⟨rfl, rfl, rfl, rfl⟩ c
      · exact ⟨_, _, rfl, ⟨rfl, rfl, rfl, rfl⟩, rfl⟩
    · have h1 : pool.SameLists
          (pool.modifyFrame hand fun fr => { fr with referenced := false }) :=
        ⟨rfl, rfl, rfl, rfl⟩
      exact (hgo _ h1 c).of_sameLists h1

omit h in
/-- The clock goes on as on the lists and is back at `start` after the frames of the round. The
    lists take their hand from the loop, so their member may lag behind. -/
theorem clockLoop_view {rounds start : Nat} (hrounds : lru.length ≤ rounds) (free : List Nat)
    {w : List Nat} : ∀ {hand n m : Nat} {pool : PointerPool α},
      IsDList pool.links pool.lruEnds lru → pool.links.Round pool.lruEnds start (hand :: w) →
      (∀ f ∈ hand :: w, f ∈ lru) → w.length < n → w.length < m → ∀ c, SameClock pool lru free
        (clockLoop rounds start n pool hand)
        (FramePool.clockLoop start m (pool.viewAt lru free c) hand) := by
  induction w with
  | nil =>
    intro hand n m pool h hround hmem hn hm c
    obtain ⟨n, rfl⟩ := exists_eq_succ_of_ne_zero (Nat.ne_zero_of_lt hn)
    obtain ⟨m, rfl⟩ := exists_eq_succ_of_ne_zero (Nat.ne_zero_of_lt hm)
    have hf := hmem hand mem_cons_self
    have hstart : (pool.view lru free).advance hand = start :=
      some.inj ((next_or_head h hf free).symm.trans hround)
    refine clockStep h free hf (fun p1 h1 c1 => ?_) c
    rw [hstart, if_pos rfl, if_pos rfl]
    exact endRound (h1.lruList h) free hrounds start c1
  | cons x w ih =>
    intro hand n m pool h hround hmem hn hm c
    obtain ⟨n, rfl⟩ := exists_eq_succ_of_ne_zero (Nat.ne_zero_of_lt hn)
    obtain ⟨m, rfl⟩ := exists_eq_succ_of_ne_zero (Nat.ne_zero_of_lt hm)
    obtain ⟨hnext, hne, hround⟩ := hround
    have hf := hmem hand mem_cons_self
    have hx : (pool.view lru free).advance hand = x :=
      some.inj ((next_or_head h hf free).symm.trans hnext)
    refine clockStep h free hf (fun p1 h1 c1 => ?_) c
    rw [hx, if_neg hne, if_neg hne]
    have h2 : p1.SameLists { p1 with clockHand := some x } := ⟨rfl, rfl, rfl, rfl⟩
    have hround' : p1.links.Round p1.lruEnds start (x :: w) := by
      rw [h1.links, h1.lruEnds]
      exact hround
    refine SameClock.of_sameLists h2 ?_
    exact ih (h2.lruList (h1.lruList h)) hround' (fun f hf => hmem f (mem_cons_of_mem _ hf))
      (lt_of_succ_lt_succ hn) (lt_of_succ_lt_succ hm) c1

/-- `find_victim_page` is that of the lists, with the latch; a round and one more are enough. -/
theorem findVictimPage_view {rounds : Nat} (hrounds : lru.length < rounds)
    (hhand : ∀ f, pool.clockHand = some f → f ∈ lru) :
    SameClock pool lru free (pool.findVictimPage rounds)
      (pool.view lru free).findVictimPage := by
  unfold PointerPool.findVictimPage FramePool.findVictimPage
  rw [h.head]
  have hsame : (pool.view lru free).clockHand.or (pool.view lru free).lru.head? =
      pool.clockHand.or lru.head? := rfl
  rw [hsame]
  cases hh : pool.clockHand.or lru.head? with
  | none => exact ⟨_, _, rfl, ⟨rfl, rfl, rfl, rfl⟩, rfl⟩
  | some hand =>
    have hf : hand ∈ lru := by
      cases hc : pool.clockHand with
      | some f =>
        rw [hc, some_or] at hh
        exact hhand hand (hc.trans hh)
      | none =>
        rw [hc, none_or] at hh
        exact mem_of_mem_head? hh
    obtain ⟨w, hperm, hround⟩ := h.round hf
    have hlen : w.length < lru.length := by
      rw [← hperm.length_eq, length_cons]
      exact lt_succ_self _
    have hset : pool.SameLists { pool with clockHand := some hand } := ⟨rfl, rfl, rfl, rfl⟩
    refine SameClock.of_sameLists hset ?_
    exact clockLoop_view (Nat.le_of_lt hrounds) free (hset.lruList h) hround
      (fun f hf => hperm.mem_iff.1 hf) (Nat.lt_trans hlen hrounds) (lt_succ_of_lt hlen)
      pool.clockHand

end

/-! ## The calls on the lists -/

/-- A call on the pointers and one on the lists both wait for ever, or both return the same and
    the pointers lay out the lists. -/
inductive Agrees {β : Type} (count : Nat) :
    Option (β × PointerPool α) → Option (β × FramePool α) → Prop
  | waits : Agrees count none none
  | returns {b : β} {pool : PointerPool α} {lru free : List Nat} (h : pool.LaidOut count lru free) :
      Agrees count (some (b, pool)) (some (b, pool.view lru free))

theorem Agrees.map {β γ : Type} {p : Option (β × PointerPool α)} {q : Option (β × FramePool α)}
    (h : Agrees count p q) {g : β × PointerPool α → γ × PointerPool α}
    {g' : β × FramePool α → γ × FramePool α}
    (hg : ∀ b (pool : PointerPool α) lru free, pool.LaidOut count lru free →
      Agrees count (some (g (b, pool))) (some (g' (b, pool.view lru free)))) :
    Agrees count (p.map g) (q.map g') := by
  cases h with
  | waits => exact .waits
  | returns h => exact hg _ _ _ _ h

section

variable (h : pool.LaidOut count lru free)
include h

theorem LaidOut.length_lru : lru.length ≤ pool.residentPageCount := by
  have hlen := h.frames.length_eq
  rw [length_append, length_range, ← h.resident] at hlen
  omega

theorem LaidOut.writeBack (q : PageNo) (f : Nat) :
    (pool.writeBack q f).LaidOut count lru free ∧
      (pool.writeBack q f).view lru free = (pool.view lru free).writeBack q f := by
  unfold PointerPool.writeBack FramePool.writeBack
  have hdirty : ((pool.view lru free).frames f).dirty = (pool.frames f).dirty := rfl
  rw [hdirty]
  split
  · exact ⟨h.congr ⟨rfl, rfl, rfl, rfl⟩, rfl⟩
  · exact ⟨h, rfl⟩

/-- `claim_frame_for_reuse` on the lists. -/
theorem LaidOut.claim (hl : (pool.view lru free).Linked) :
    Agrees count pool.claimFrameForReuse (pool.view lru free).claimFrameForReuse := by
  unfold PointerPool.claimFrameForReuse FramePool.claimFrameForReuse
  rw [h.freeList.head]
  cases free with
  | cons f free =>
    have hfree : (pool.view lru (f :: free)).free = f :: free := rfl
    have hlatch : (pool.view lru (f :: free)).unlatched f = pool.unlatched f := rfl
    rw [hfree]
    dsimp only [head?_cons]
    rw [hlatch]
    split
    · obtain ⟨h1, h2⟩ := h.takeFree
      rw [← h2]
      exact .returns (h1.congr ⟨rfl, rfl, rfl, rfl⟩)
    · exact .waits
  | nil =>
    have hfree : (pool.view lru []).free = [] := rfl
    have hhand : ∀ f, pool.clockHand = some f → f ∈ lru := fun f hf =>
      (hl.hand f hf).resolve_right fun hr => hr.2 rfl
    obtain ⟨r, pool1, hclock, hlists, heq⟩ := findVictimPage_view h.lruList []
      (lt_succ_of_le h.length_lru) hhand
    have h1 := h.congr hlists
    obtain ⟨-, -, hmem⟩ := FramePool.findVictimPage_spec hl hfree
    rw [hfree]
    dsimp only [head?_nil]
    rw [hclock, map_some]
    generalize (pool.view lru []).findVictimPage = v at heq hmem ⊢
    obtain ⟨r', fp⟩ := v
    have hr : r = r' := congrArg Prod.fst heq
    subst hr
    have hview : pool1.view lru [] = (withLatch (r, fp)).2 := congrArg Prod.snd heq
    cases r with
    | none =>
      have hfp : fp = pool1.view lru [] := hview.symm
      dsimp only
      rw [hfp]
      exact .returns h1
    | some f =>
      have hfp : fp.wLatch f = pool1.view lru [] := hview.symm
      have hf : f ∈ lru := hmem f rfl
      have hno : (fp.frames f).pageNo = (pool1.frames f).pageNo := by
        have hframes : (fp.wLatch f).frames f = pool1.frames f := by rw [hfp]; rfl
        rw [← hframes, (FramePool.keeps_wLatch fp f).pageNo]
      dsimp only
      rw [hfp, hno]
      obtain ⟨h2, h3⟩ := h1.relink hf (pool1.frames f).pageNo
      obtain ⟨h4, h5⟩ := h2.writeBack (pool1.frames f).pageNo f
      rw [← h3, ← h5]
      exact .returns h4

end

variable {ops : PageOps α}

section

variable (h : pool.LaidOut count lru free)
include h

theorem LaidOut.latchCached (f : Nat) (writeLatch : Bool) :
    Agrees count ((pool.latchCached f writeLatch).map fun p => (Except.ok f, p))
      (((pool.view lru free).latchCached f writeLatch).map fun p =>
        ((Except.ok f : Except PoolError Nat), p)) := by
  have hlaid : ∀ {pool'}, pool.SameLists pool' → pool'.LaidOut count lru free := h.congr
  unfold PointerPool.latchCached FramePool.latchCached
  have hlatch : (pool.view lru free).unlatched f = pool.unlatched f := rfl
  have hwriter : ((pool.view lru free).frames f).writer = (pool.frames f).writer := rfl
  rw [hlatch, hwriter]
  split
  · split
    · exact .returns (hlaid ⟨rfl, rfl, rfl, rfl⟩)
    · exact .waits
  · split
    · exact .waits
    · exact .returns (hlaid ⟨rfl, rfl, rfl, rfl⟩)

section

variable (hl : (pool.view lru free).Linked) (q : PageNo)
include hl

theorem LaidOut.readPageInternal (writeLatch ioFails : Bool) :
    Agrees count (pool.readPageInternal ops q writeLatch ioFails)
      ((pool.view lru free).readPageInternal ops q writeLatch ioFails) := by
  unfold PointerPool.readPageInternal FramePool.readPageInternal
  have hcached : (pool.view lru free).cached q = pool.cached q := rfl
  rw [hcached]
  cases pool.cached q with
  | some f => exact h.latchCached f writeLatch
  | none =>
    refine (h.claim hl).map fun r pool1 lru1 free1 h1 => ?_
    cases r with
    | error e => exact .returns h1
    | ok f =>
      dsimp only
      have hdata : (((pool1.view lru1 free1).fill f q ((pool1.view lru1 free1).disk q)).frames
          f).data = ((pool1.fill f q (pool1.disk q)).frames f).data := rfl
      rw [hdata]
      split
      · exact Agrees.returns (h1.congr ⟨rfl, rfl, rfl, rfl⟩)
      · split
        · split
          · exact Agrees.returns (h1.congr ⟨rfl, rfl, rfl, rfl⟩)
          · exact Agrees.returns (h1.congr ⟨rfl, rfl, rfl, rfl⟩)
        · exact Agrees.returns (h1.congr ⟨rfl, rfl, rfl, rfl⟩)

theorem LaidOut.bufPageCp (pageData : α) :
    Agrees count (pool.bufPageCp ops q pageData) ((pool.view lru free).bufPageCp ops q pageData) := by
  unfold PointerPool.bufPageCp FramePool.bufPageCp
  have hmap : (pool.view lru free).pageMap q = pool.pageMap q := rfl
  rw [hmap]
  cases pool.pageMap q with
  | some f => exact .returns h
  | none =>
    refine (h.claim hl).map fun r pool1 lru1 free1 h1 => ?_
    cases r with
    | error e => exact .returns h1
    | ok f =>
      dsimp only
      split
      · exact Agrees.returns (h1.congr ⟨rfl, rfl, rfl, rfl⟩)
      · exact Agrees.returns (h1.congr ⟨rfl, rfl, rfl, rfl⟩)

theorem LaidOut.bufPageNew :
    Agrees count (pool.bufPageNew ops q) ((pool.view lru free).bufPageNew ops q) := by
  unfold PointerPool.bufPageNew FramePool.bufPageNew
  have hcached : (pool.view lru free).cached q = pool.cached q := rfl
  rw [hcached]
  cases pool.cached q with
  | some f => exact h.latchCached f true
  | none =>
    refine (h.claim hl).map fun r pool1 lru1 free1 h1 => ?_
    cases r with
    | error e => exact .returns h1
    | ok f => exact Agrees.returns (h1.congr ⟨rfl, rfl, rfl, rfl⟩)

end

/-- A page that is mapped to a frame of the LRU list only is retired as on the lists. -/
theorem LaidOut.retirePage {q : PageNo} (hq : ∀ f, pool.pageMap q = some f → f ∈ lru) :
    Agrees count (some (pool.retirePage q)) (some ((pool.view lru free).retirePage q)) := by
  unfold PointerPool.retirePage FramePool.retirePage
  have hmap : (pool.view lru free).pageMap q = pool.pageMap q := rfl
  rw [hmap]
  cases hf : pool.pageMap q with
  | none => exact .returns h
  | some f =>
    dsimp only
    have hpin : ((pool.view lru free).frames f).pinCount = (pool.frames f).pinCount := rfl
    have hlatch : (pool.view lru free).unlatched f = pool.unlatched f := rfl
    rw [hpin, hlatch]
    split
    · exact .returns h
    · obtain ⟨h1, h2⟩ := h.giveBack (hq f hf) q fun fr =>
        { fr with dirty := false, referenced := false }
      have hres := Agrees.returns (b := true) h1
      rw [h2] at hres
      exact hres

end

/-- Every call on the pointers does what it does on the lists. -/
theorem LaidOut.call (h : pool.LaidOut count lru free) (hl : (pool.view lru free).Linked)
    (hm : ∀ q f, pool.pageMap q = some f → f ∈ lru) (c : PoolCall α) :
    Agrees count (pool.call ops c) ((pool.view lru free).call ops c) := by
  cases c with
  | bufPageRead q ioFails =>
    exact (h.readPageInternal hl q false ioFails).map fun r _ _ _ h1 => .returns h1
  | bufPageReadForSlotWrite q ioFails =>
    exact (h.readPageInternal hl q true ioFails).map fun r _ _ _ h1 => .returns h1
  | bufPageNew q => exact (h.bufPageNew hl q).map fun r _ _ _ h1 => .returns h1
  | bufPageCp q pageData =>
    exact (h.bufPageCp hl q pageData).map fun r _ _ _ h1 => .returns h1
  | retirePage q =>
    have hmap : Agrees count ((some (pool.retirePage q)).map fun r => ((none : Option PoolError), r.2))
        ((some ((pool.view lru free).retirePage q)).map fun r => (none, r.2)) :=
      (h.retirePage (hm q)).map fun r _ _ _ h1 => .returns h1
    exact hmap
  | hold frames disk => exact Agrees.returns (h.congr ⟨rfl, rfl, rfl, rfl⟩)

/-- One call on the pointers, seen on the lists. -/
theorem LaidOut.step (h : pool.LaidOut count lru free) (hs : (pool.view lru free).Sound)
    {c : PoolCall α} (hc : pool.step ops c = some pool') :
    ∃ lru' free', pool'.LaidOut count lru' free' ∧ (pool'.view lru' free').Sound ∧
      (pool.view lru free).step ops c = some (pool'.view lru' free') := by
  obtain ⟨⟨e, pool1⟩, hcall, rfl⟩ := map_eq_some_iff.1 hc
  have hagrees : Agrees count (pool.call ops c) ((pool.view lru free).call ops c) :=
    h.call hs.linked (fun q f hq => (hs.placed q f hq).1) c
  rw [hcall] at hagrees
  generalize hq : (pool.view lru free).call ops c = q at hagrees
  cases hagrees with
  | returns h1 =>
    refine ⟨_, _, h1, hs.call hq, ?_⟩
    rw [FramePool.step, hq]
    rfl

/-- The pointers of any run are those of the run on the lists. -/
theorem runAll_view {es : List (PoolCall α)} : ∀ {pool pool' : PointerPool α} {lru free : List Nat},
    pool.LaidOut count lru free → (pool.view lru free).Sound →
      runAll (step ops) pool es = some pool' →
      ∃ lru' free', pool'.LaidOut count lru' free' ∧ (pool'.view lru' free').Sound ∧
        runAll (FramePool.step ops) (pool.view lru free) es = some (pool'.view lru' free') := by
  induction es with
  | nil =>
    intro pool pool' lru free h hs hr
    cases hr
    exact ⟨lru, free, h, hs, rfl⟩
  | cons e es ih =>
    intro pool pool' lru free h hs hr
    obtain ⟨pool1, h1, hr⟩ := bind_eq_some_iff.1 hr
    obtain ⟨lru1, free1, hl1, hs1, hstep⟩ := h.step hs h1
    obtain ⟨lru2, free2, hl2, hs2, hrun⟩ := ih hl1 hs1 hr
    exact ⟨lru2, free2, hl2, hs2, bind_eq_some_iff.2 ⟨_, hstep, hrun⟩⟩

/-- In every run, whatever its calls end in, the free list and the LRU list are laid out and hold
    every frame once between them, and the clock hand is in the LRU list, if there is one. -/
theorem laidOut_of_run {n : Nat} {blank : α} {disk : PageNo → α} {es : List (PoolCall α)}
    (run : runAll (step ops) (start n blank disk) es = some pool) :
    ∃ lru free, IsDList pool.links pool.lruEnds lru ∧ IsDList pool.links pool.freeEnds free ∧
      (lru ++ free).Perm (List.range n) ∧ (lru = [] ∨ ∃ f ∈ lru, pool.clockHand = some f) := by
  obtain ⟨hstart, hview⟩ := start_laidOut n blank disk
  have hsound : ((start n blank disk).view [] (List.range n)).Sound := by
    rw [hview]
    exact FramePool.start_sound n blank disk
  obtain ⟨lru, free, h, hs, -⟩ := runAll_view hstart hsound run
  refine ⟨lru, free, h.lruList, h.freeList, h.frames, ?_⟩
  by_cases hne : lru = []
  · exact .inl hne
  · obtain ⟨f, hf⟩ := Option.ne_none_iff_exists'.1 (hs.handed hne)
    refine .inr ⟨f, ?_, hf⟩
    exact (hs.linked.hand f hf).resolve_right fun hr => hne hr.1

/-- A run in which a load fails: `self_parse` throws on page 7, and the frame stays in the list. -/
theorem laidOut_of_run_orphan : ∃ pool,
    runAll (step (csrPageOps brokenConfig)) (start 2 [] brokenFile) orphanCalls = some pool ∧
      ∃ lru free, IsDList pool.links pool.lruEnds lru ∧ IsDList pool.links pool.freeEnds free ∧
        (lru ++ free).Perm (List.range 2) ∧ (lru = [] ∨ ∃ f ∈ lru, pool.clockHand = some f) := by
  have hsome : (runAll (step (csrPageOps brokenConfig)) (start 2 [] brokenFile)
      orphanCalls).isSome = true := by decide +kernel
  obtain ⟨pool, hpool⟩ := Option.isSome_iff_exists.1 hsome
  exact ⟨pool, hpool, laidOut_of_run hpool⟩

/-! ## The victim -/

end PointerPool

end BwGraph
