import Mathlib.Logic.Function.Basic
import Mathlib.Data.List.Nodup
import Mathlib.Data.List.Infix
import BwGraph.Io.PageData
import BwGraph.Lib.Run

/-
  `buf_pool_t` (`buf_pool.cc`) for any page type, with its latches, its lists and the calls that
  end in an exception, run by one thread. `page_map` and the LRU list agree when a page number is
  mapped to a frame exactly if the frame is in the list under that number (`InSync`).

  A load links the claimed frame first and maps it last, and its exception path gives back the
  latch alone: the frame stays in the list without a mapping, under its old number or the new one.
  When that orphan is evicted, `page_map.erase` takes the mapping of whichever frame holds the
  page by then. So the two agree in every state of a run exactly if no call of the run ends in an
  exception of `read_page` or `self_parse` (`inSync_iff`).
-/

namespace BwGraph

open Function List Option

/-- A frame of the pool; `readers` counts the read latches, `writer` is the write latch. -/
structure PoolFrame (α : Type) where
  pageNo : PageNo
  pinCount : Int
  readers : Nat
  writer : Bool
  referenced : Bool
  dirty : Bool
  data : α

/-- `buf_pool_t` with its file. `lru` is the list from `lru_head_`, `free` the one from
    `free_head_`. -/
structure FramePool (α : Type) where
  frames : Nat → PoolFrame α
  pageMap : PageNo → Option Nat
  lru : List Nat
  free : List Nat
  clockHand : Option Nat
  disk : PageNo → α

/-- What the pool asks of a page type: whether `self_parse` returns, and what `reinit` does. -/
structure PageOps (α : Type) where
  parses : α → Bool
  reinit : α → α
  reinitDirty : Bool

/-- Where an exception comes from. -/
inductive PoolError where
  | allPinned
  | readPage
  | selfParse
  deriving DecidableEq, Repr

namespace FramePool

variable {α : Type}

/-- Change a frame. -/
def modifyFrame (pool : FramePool α) (f : Nat) (g : PoolFrame α → PoolFrame α) : FramePool α :=
  { pool with frames := Function.update pool.frames f (g (pool.frames f)) }

/-- `try_w_latch` would succeed. -/
def unlatched (pool : FramePool α) (f : Nat) : Bool :=
  (pool.frames f).readers = 0 && !(pool.frames f).writer

/-- `w_latch`. -/
def wLatch (pool : FramePool α) (f : Nat) : FramePool α :=
  pool.modifyFrame f fun fr => { fr with writer := true }

/-- `w_unlatch`. -/
def wUnlatch (pool : FramePool α) (f : Nat) : FramePool α :=
  pool.modifyFrame f fun fr => { fr with writer := false }

/-- `r_latch`. -/
def rLatch (pool : FramePool α) (f : Nat) : FramePool α :=
  pool.modifyFrame f fun fr =>
    { fr with pinCount := fr.pinCount + 1, readers := fr.readers + 1 }

/-- `set_referenced(true)`. -/
def setReferenced (pool : FramePool α) (f : Nat) : FramePool α :=
  pool.modifyFrame f fun fr => { fr with referenced := true }

/-! ## The clock -/

/-- `clock_hand_->get_next()`, or the head of the list. -/
def advance (pool : FramePool α) (hand : Nat) : Nat :=
  ((pool.lru.dropWhile fun f => f ≠ hand)[1]?).getD (pool.lru.head?.getD hand)

/-- The full scan of `find_victim_page`. -/
def fullScan (pool : FramePool α) : Option Nat :=
  pool.lru.find? fun f => (pool.frames f).pinCount = 0 && pool.unlatched f

/-- The loop of `find_victim_page` from the hand on; a round of the list is enough fuel. -/
def clockLoop (start : Nat) : Nat → FramePool α → Nat → Option Nat × FramePool α
  | 0, pool, _ => (pool.fullScan, pool)
  | n + 1, pool, hand =>
    let next := pool.advance hand
    let goOn (pool : FramePool α) : Option Nat × FramePool α :=
      if next = start then (pool.fullScan, { pool with clockHand := some next })
      else clockLoop start n pool next
    if (pool.frames hand).pinCount > 0 then goOn pool
    else if (pool.frames hand).referenced = false then
      if pool.unlatched hand = false then goOn pool
      else (some hand, { pool with clockHand := some next })
    else goOn (pool.modifyFrame hand fun fr => { fr with referenced := false })

/-- `find_victim_page`, without the latch it takes on the victim. -/
def findVictimPage (pool : FramePool α) : Option Nat × FramePool α :=
  match pool.clockHand.or pool.lru.head? with
  | none => (none, pool)
  | some hand => clockLoop hand (pool.lru.length + 1) pool hand

/-! ## Frames for pages -/

/-- `remove_from_lru_list`. -/
def removeFromLruList (pool : FramePool α) (f : Nat) : FramePool α :=
  { pool with
    clockHand := if pool.clockHand = some f then some (pool.advance f) else pool.clockHand
    lru := pool.lru.erase f }

/-- `add_to_lru_head`. -/
def addToLruHead (pool : FramePool α) (f : Nat) : FramePool α :=
  { pool with
    clockHand := if pool.lru = [] then some f else pool.clockHand
    lru := f :: pool.lru }

/-- `page_map.erase`. -/
def eraseMap (pool : FramePool α) (q : PageNo) : FramePool α :=
  { pool with pageMap := Function.update pool.pageMap q none }

/-- `page_map.insert`, which keeps an entry that is there. -/
def insertMap (pool : FramePool α) (q : PageNo) (f : Nat) : FramePool α :=
  { pool with pageMap := Function.update pool.pageMap q ((pool.pageMap q).or (some f)) }

/-- The write-back of a dirty victim. -/
def writeBack (pool : FramePool α) (q : PageNo) (f : Nat) : FramePool α :=
  if (pool.frames f).dirty then
    { pool with disk := Function.update pool.disk q (pool.frames f).data }.modifyFrame f
      fun fr => { fr with dirty := false }
  else pool

/-- `claim_frame_for_reuse`: the frame, with the write latch. `none` when the latch of a free frame
    is never granted. -/
def claimFrameForReuse (pool : FramePool α) : Option (Except PoolError Nat × FramePool α) :=
  match pool.free with
  | f :: rest =>
    if pool.unlatched f then
      some (.ok f, ({ pool with free := rest }.addToLruHead f).wLatch f)
    else none
  | [] =>
    match pool.findVictimPage with
    | (none, pool) => some (.error .allPinned, pool)
    | (some f, pool) =>
      let q := (pool.frames f).pageNo
      some (.ok f, (((pool.wLatch f).removeFromLruList f).eraseMap q |>.addToLruHead f).writeBack
        q f)

/-- The lookup of `try_latch_cached_page`. -/
def cached (pool : FramePool α) (q : PageNo) : Option Nat :=
  (pool.pageMap q).bind fun f => if (pool.frames f).pageNo = q then some f else none

/-- The latch of `try_latch_cached_page`; `none` when it is never granted. -/
def latchCached (pool : FramePool α) (f : Nat) (writeLatch : Bool) : Option (FramePool α) :=
  if writeLatch then
    if pool.unlatched f then some ((pool.wLatch f).setReferenced f) else none
  else
    if (pool.frames f).writer then none else some ((pool.rLatch f).setReferenced f)

/-- The number and the bytes a load gives the frame. -/
def fill (pool : FramePool α) (f : Nat) (q : PageNo) (image : α) : FramePool α :=
  pool.modifyFrame f fun fr => { fr with pageNo := q, data := image }

/-- `w_to_r_latch`. -/
def wToRLatch (pool : FramePool α) (f : Nat) : FramePool α :=
  (pool.wUnlatch f).rLatch f

section Calls

variable (ops : PageOps α)

/-- `read_page_internal`. `ioFails` says that `read_page` throws. `none` when the call waits for a
    latch that its own thread holds. -/
def readPageInternal (pool : FramePool α) (q : PageNo) (writeLatch ioFails : Bool) :
    Option (Except PoolError Nat × FramePool α) :=
  match pool.cached q with
  | some f => (pool.latchCached f writeLatch).map fun pool => (.ok f, pool)
  | none =>
    pool.claimFrameForReuse.map fun r =>
      match r with
      | (.error e, pool) => (.error e, pool)
      | (.ok f, pool) =>
        if ioFails then (.error .readPage, pool.wUnlatch f)
        else
          let pool := pool.fill f q (pool.disk q)
          if ops.parses (pool.frames f).data then
            let pool := (pool.setReferenced f).insertMap q f
            (.ok f, if writeLatch then pool else pool.wToRLatch f)
          else (.error .selfParse, pool.wUnlatch f)

/-- `buf_page_cp`: the frame, or none for a page that is cached. There is no exception path. -/
def bufPageCp (pool : FramePool α) (q : PageNo) (pageData : α) :
    Option (Except PoolError (Option Nat) × FramePool α) :=
  match pool.pageMap q with
  | some _ => some (.ok none, pool)
  | none =>
    pool.claimFrameForReuse.map fun r =>
      match r with
      | (.error e, pool) => (.error e, pool)
      | (.ok f, pool) =>
        let pool := pool.fill f q pageData
        if ops.parses pageData then
          (.ok (some f), ((pool.setReferenced f).insertMap q f).wUnlatch f)
        else (.error .selfParse, pool)

/-- `buf_page_new`. -/
def bufPageNew (pool : FramePool α) (q : PageNo) :
    Option (Except PoolError Nat × FramePool α) :=
  match pool.cached q with
  | some f => (pool.latchCached f true).map fun pool => (.ok f, pool)
  | none =>
    pool.claimFrameForReuse.map fun r =>
      match r with
      | (.error e, pool) => (.error e, pool)
      | (.ok f, pool) =>
        let pool := pool.modifyFrame f fun fr =>
          { fr with
            pageNo := q
            data := ops.reinit fr.data
            dirty := fr.dirty || ops.reinitDirty
            referenced := true
            pinCount := fr.pinCount + 1 }
        (.ok f, pool.insertMap q f)

/-- `retire_page`. -/
def retirePage (pool : FramePool α) (q : PageNo) : Bool × FramePool α :=
  match pool.pageMap q with
  | none => (true, pool)
  | some f =>
    if (pool.frames f).pinCount > 0 ∨ pool.unlatched f = false then (false, pool)
    else
      let pool := ((pool.eraseMap q).removeFromLruList f).modifyFrame f fun fr =>
        { fr with dirty := false, referenced := false }
      (true, { pool with free := pool.free ++ [f] })

end Calls

end FramePool

/-- The calls of the pool; `hold` is what happens in between: frames are latched, unlatched,
    pinned and written, pages are written to the file, but no frame changes its number. -/
inductive PoolCall (α : Type) where
  | bufPageRead (q : PageNo) (ioFails : Bool)
  | bufPageReadForSlotWrite (q : PageNo) (ioFails : Bool)
  | bufPageNew (q : PageNo)
  | bufPageCp (q : PageNo) (pageData : α)
  | retirePage (q : PageNo)
  | hold (frames : Nat → PoolFrame α) (disk : PageNo → α)

namespace FramePool

variable {α : Type} (ops : PageOps α)

/-- What a call ends in: an exception, if any, and the pool. -/
def call (pool : FramePool α) : PoolCall α → Option (Option PoolError × FramePool α)
  | .bufPageRead q ioFails =>
    (pool.readPageInternal ops q false ioFails).map fun r => (thrown r.1, r.2)
  | .bufPageReadForSlotWrite q ioFails =>
    (pool.readPageInternal ops q true ioFails).map fun r => (thrown r.1, r.2)
  | .bufPageNew q => (pool.bufPageNew ops q).map fun r => (thrown r.1, r.2)
  | .bufPageCp q pageData => (pool.bufPageCp ops q pageData).map fun r => (thrown r.1, r.2)
  | .retirePage q => some (none, (pool.retirePage q).2)
  | .hold frames disk => some (none, { pool with
      frames := fun f => { frames f with pageNo := (pool.frames f).pageNo }
      disk := disk })
where
  /-- The exception of a result. -/
  thrown {β : Type} : Except PoolError β → Option PoolError
    | .error e => some e
    | .ok _ => none

/-- One call, whatever it ends in. -/
def step (pool : FramePool α) (c : PoolCall α) : Option (FramePool α) :=
  (pool.call ops c).map Prod.snd

/-- The pool as `buf_pool_init` leaves it, with `n` frames. -/
def start (n : Nat) (blank : α) (disk : PageNo → α) : FramePool α where
  frames := fun _ => ⟨0, 0, 0, false, false, false, blank⟩
  pageMap := fun _ => none
  lru := []
  free := List.range n
  clockHand := none
  disk := disk

/-- `page_map` maps a page to a frame exactly if the frame is in the LRU list under its number. -/
def InSync (pool : FramePool α) : Prop :=
  ∀ p f, pool.pageMap p = some f ↔ f ∈ pool.lru ∧ (pool.frames f).pageNo = p

/-- The call finds no cached page and gets a frame for it, and then `read_page` fails or the image
    does not parse. -/
def Throws (pool : FramePool α) : PoolCall α → Prop
  | .bufPageRead q ioFails | .bufPageReadForSlotWrite q ioFails =>
    pool.cached q = none ∧ ∃ f pool', pool.claimFrameForReuse = some (.ok f, pool') ∧
      (ioFails = true ∨ ops.parses (pool'.disk q) = false)
  | .bufPageCp q pageData =>
    pool.pageMap q = none ∧ (∃ f pool', pool.claimFrameForReuse = some (.ok f, pool')) ∧
      ops.parses pageData = false
  | _ => False

/-! ## What the calls leave alone -/

variable {ops} {pool pool' pool'' : FramePool α} {f : Nat}

/-- The lists, the map and the numbers of the frames are the same. -/
structure Keeps (pool pool' : FramePool α) : Prop where
  pageMap : pool'.pageMap = pool.pageMap
  lru : pool'.lru = pool.lru
  free : pool'.free = pool.free
  pageNo : ∀ f, (pool'.frames f).pageNo = (pool.frames f).pageNo

theorem Keeps.refl (pool : FramePool α) : pool.Keeps pool := ⟨rfl, rfl, rfl, fun _ => rfl⟩

theorem Keeps.trans (h : pool.Keeps pool') (h' : pool'.Keeps pool'') : pool.Keeps pool'' :=
  ⟨h'.pageMap.trans h.pageMap, h'.lru.trans h.lru, h'.free.trans h.free,
    fun f => (h'.pageNo f).trans (h.pageNo f)⟩

theorem InSync.keeps (h : pool.InSync) (hk : pool.Keeps pool') : pool'.InSync := by
  intro p f
  rw [hk.pageMap, hk.lru, hk.pageNo]
  exact h p f

section

variable (pool : FramePool α)

@[simp] theorem modifyFrame_self (f : Nat) (g : PoolFrame α → PoolFrame α) :
    (pool.modifyFrame f g).frames f = g (pool.frames f) := update_self ..

theorem modifyFrame_ne {f f' : Nat} (g : PoolFrame α → PoolFrame α) (h : f' ≠ f) :
    (pool.modifyFrame f g).frames f' = pool.frames f' := update_of_ne h ..

variable (f : Nat)

theorem keeps_modifyFrame {g : PoolFrame α → PoolFrame α} (hg : ∀ fr, (g fr).pageNo = fr.pageNo) :
    pool.Keeps (pool.modifyFrame f g) := by
  refine ⟨rfl, rfl, rfl, fun f' => ?_⟩
  by_cases hf : f' = f
  · subst hf
    rw [modifyFrame_self, hg]
  · rw [modifyFrame_ne _ _ hf]

theorem keeps_wLatch : pool.Keeps (pool.wLatch f) :=
  keeps_modifyFrame pool f fun _ => rfl

theorem keeps_wUnlatch : pool.Keeps (pool.wUnlatch f) :=
  keeps_modifyFrame pool f fun _ => rfl

theorem keeps_rLatch : pool.Keeps (pool.rLatch f) :=
  keeps_modifyFrame pool f fun _ => rfl

theorem keeps_setReferenced : pool.Keeps (pool.setReferenced f) :=
  keeps_modifyFrame pool f fun _ => rfl

end

theorem keeps_latchCached {writeLatch : Bool} (h : pool.latchCached f writeLatch = some pool') :
    pool.Keeps pool' ∧ pool'.clockHand = pool.clockHand := by
  unfold latchCached at h
  split_ifs at h
  · cases h
    exact ⟨(keeps_wLatch pool f).trans (keeps_setReferenced _ f), rfl⟩
  · cases h
    exact ⟨(keeps_rLatch pool f).trans (keeps_setReferenced _ f), rfl⟩

theorem keeps_writeBack (pool : FramePool α) (q : PageNo) (f : Nat) :
    pool.Keeps (pool.writeBack q f) ∧ (pool.writeBack q f).clockHand = pool.clockHand := by
  unfold writeBack
  split_ifs
  · have h : pool.Keeps { pool with disk := update pool.disk q (pool.frames f).data } :=
      ⟨rfl, rfl, rfl, fun _ => rfl⟩
    exact ⟨h.trans (keeps_modifyFrame _ _ fun _ => rfl), rfl⟩
  · exact ⟨.refl pool, rfl⟩

/-! ## The lists -/

/-- The two lists share no frame and hold each once; the hand is in the LRU list, unless that is
    empty and a free frame comes before the next use of the hand. -/
structure Linked (pool : FramePool α) : Prop where
  lru : pool.lru.Nodup
  free : pool.free.Nodup
  disjoint : ∀ f ∈ pool.free, f ∉ pool.lru
  hand : ∀ h, pool.clockHand = some h → h ∈ pool.lru ∨ pool.lru = [] ∧ pool.free ≠ []

theorem Linked.keeps (h : pool.Linked) (hk : pool.Keeps pool')
    (hh : pool'.clockHand = pool.clockHand) : pool'.Linked := by
  refine ⟨hk.lru ▸ h.lru, hk.free ▸ h.free, ?_, ?_⟩
  · rw [hk.lru, hk.free]
    exact h.disjoint
  · rw [hk.lru, hk.free, hh]
    exact h.hand

/-- Where the hand moves to. -/
theorem advance_eq {a b : List Nat} (hl : pool.lru = a ++ f :: b) (hf : f ∉ a) :
    pool.advance f = b.head?.getD ((a ++ f :: b).head?.getD f) := by
  have hdrop : pool.lru.dropWhile (fun x => x ≠ f) = f :: b := by
    rw [hl, dropWhile_append_of_pos]
    · simp
    · intro x hx
      simp only [ne_eq, decide_not, Bool.not_eq_true', decide_eq_false_iff_not]
      exact fun he => hf (he ▸ hx)
  rw [advance, hdrop, hl, getElem?_cons_succ, ← head?_eq_getElem?]

theorem advance_mem (hf : f ∈ pool.lru) : pool.advance f ∈ pool.lru := by
  obtain ⟨a, b, hl, hfa⟩ := eq_append_cons_of_mem hf
  rw [advance_eq hl hfa, hl]
  cases b with
  | cons c b => simp
  | nil =>
    cases a with
    | nil => simp
    | cons c a => simp

theorem advance_ne (hn : pool.lru.Nodup) (hf : f ∈ pool.lru) (hl : pool.lru ≠ [f]) :
    pool.advance f ≠ f := by
  obtain ⟨a, b, hab, hfa⟩ := eq_append_cons_of_mem hf
  rw [hab] at hn hl
  rw [advance_eq hab hfa]
  cases b with
  | cons c b =>
    intro he
    have hc : c = f := he
    rw [nodup_append] at hn
    exact (nodup_cons.1 hn.2.1).1 (hc ▸ mem_cons_self)
  | nil =>
    cases a with
    | nil => exact absurd rfl hl
    | cons c a =>
      intro he
      have hc : c = f := he
      exact hfa (hc ▸ mem_cons_self)

/-- The clock looks at frames of the list only, and changes nothing but reference bits. -/
theorem clockLoop_spec (start n : Nat) (pool : FramePool α) (hand : Nat) (hhand : hand ∈ pool.lru)
    (hold : ∀ h, pool.clockHand = some h → h ∈ pool.lru) :
    pool.Keeps (clockLoop start n pool hand).2 ∧
      (∀ h, (clockLoop start n pool hand).2.clockHand = some h → h ∈ pool.lru) ∧
      ∀ f, (clockLoop start n pool hand).1 = some f → f ∈ pool.lru := by
  induction n generalizing pool hand with
  | zero => exact ⟨.refl pool, hold, fun f hf => mem_of_find?_eq_some hf⟩
  | succ n ih =>
    have hnext : pool.advance hand ∈ pool.lru := advance_mem hhand
    have hset : ∀ h, some (pool.advance hand) = some h → h ∈ pool.lru :=
      fun h he => some.inj he ▸ hnext
    -- from a pool with the same lists on
    have hgo : ∀ pool' : FramePool α, pool.Keeps pool' → pool'.clockHand = pool.clockHand →
        pool.Keeps (if pool.advance hand = start then
            (pool'.fullScan, { pool' with clockHand := some (pool.advance hand) })
          else clockLoop start n pool' (pool.advance hand)).2 ∧
        (∀ h, (if pool.advance hand = start then
            (pool'.fullScan, { pool' with clockHand := some (pool.advance hand) })
          else clockLoop start n pool' (pool.advance hand)).2.clockHand = some h →
          h ∈ pool.lru) ∧
        ∀ f, (if pool.advance hand = start then
            (pool'.fullScan, { pool' with clockHand := some (pool.advance hand) })
          else clockLoop start n pool' (pool.advance hand)).1 = some f → f ∈ pool.lru := by
      intro pool' hk hh
      split_ifs
      · exact ⟨⟨hk.pageMap, hk.lru, hk.free, hk.pageNo⟩, hset,
          fun f hf => hk.lru ▸ mem_of_find?_eq_some hf⟩
      · obtain ⟨h1, h2, h3⟩ := ih pool' (pool.advance hand) (hk.lru ▸ hnext)
          (by rw [hh, hk.lru]; exact hold)
        rw [hk.lru] at h2 h3
        exact ⟨hk.trans h1, h2, h3⟩
    unfold clockLoop
    split_ifs with h1 h2 h3
    · exact hgo pool (.refl pool) rfl
    · exact hgo pool (.refl pool) rfl
    · refine ⟨⟨rfl, rfl, rfl, fun _ => rfl⟩, hset, fun f hf => ?_⟩
      cases hf
      exact hhand
    · exact hgo _ (keeps_modifyFrame pool hand fun _ => rfl) rfl

theorem findVictimPage_spec (h : pool.Linked) (hfree : pool.free = []) :
    pool.Keeps pool.findVictimPage.2 ∧ pool.findVictimPage.2.Linked ∧
      ∀ f, pool.findVictimPage.1 = some f → f ∈ pool.lru := by
  have hold : ∀ x, pool.clockHand = some x → x ∈ pool.lru :=
    fun x hx => (h.hand x hx).resolve_right fun hr => hr.2 hfree
  unfold findVictimPage
  split
  · exact ⟨.refl pool, h, nofun⟩
  · rename_i hand hhand
    have hmem : hand ∈ pool.lru := by
      cases hc : pool.clockHand with
      | some x =>
        rw [hc] at hhand
        cases hhand
        exact hold hand hc
      | none =>
        rw [hc, none_or] at hhand
        exact mem_of_mem_head? hhand
    obtain ⟨hk, hh, hf⟩ := clockLoop_spec hand (pool.lru.length + 1) pool hand hmem hold
    refine ⟨hk, ⟨?_, ?_, ?_, ?_⟩, hf⟩
    · rw [hk.lru]
      exact h.lru
    · rw [hk.free]
      exact h.free
    · rw [hk.lru, hk.free]
      exact h.disjoint
    · rw [hk.lru]
      exact fun x hx => .inl (hh x hx)

/-! ## A claimed frame -/

/-- The map and the list agree on all frames but `f`, which is in the list and not mapped. -/
structure Claimed (pool : FramePool α) (f : Nat) : Prop where
  mem : f ∈ pool.lru
  sync : ∀ p g, pool.pageMap p = some g ↔ g ∈ pool.lru ∧ g ≠ f ∧ (pool.frames g).pageNo = p

theorem Claimed.keeps (h : pool.Claimed f) (hk : pool.Keeps pool') : pool'.Claimed f := by
  refine ⟨hk.lru ▸ h.mem, fun p g => ?_⟩
  rw [hk.pageMap, hk.lru, hk.pageNo]
  exact h.sync p g

/-- Under whatever number, a claimed frame is an orphan. -/
theorem Claimed.not_inSync (h : pool.Claimed f) : ¬ pool.InSync := by
  intro hs
  have hmap := (hs (pool.frames f).pageNo f).2 ⟨h.mem, rfl⟩
  exact ((h.sync _ f).1 hmap).2.1 rfl

/-- A new number for the claimed frame. -/
theorem Claimed.rename (h : pool.Claimed f) (g : PoolFrame α → PoolFrame α) :
    (pool.modifyFrame f g).Claimed f := by
  refine ⟨h.mem, fun p g' => (h.sync p g').trans ?_⟩
  constructor
  · rintro ⟨h1, h2, h3⟩
    refine ⟨h1, h2, ?_⟩
    rw [modifyFrame_ne _ _ h2]
    exact h3
  · rintro ⟨h1, h2, h3⟩
    rw [modifyFrame_ne _ _ h2] at h3
    exact ⟨h1, h2, h3⟩

variable {q : PageNo}

/-- The mapping of a claimed frame, under a number that is not mapped. -/
theorem Claimed.insertMap (h : pool.Claimed f) (hq : pool.pageMap q = none)
    (hno : (pool.frames f).pageNo = q) : (pool.insertMap q f).InSync := by
  intro p g
  by_cases hp : p = q
  · subst hp
    have hmap : (pool.insertMap p f).pageMap p = some f := by
      simp [FramePool.insertMap, hq]
    rw [hmap]
    constructor
    · rintro ⟨⟩
      exact ⟨h.mem, hno⟩
    · rintro ⟨hg, hgp⟩
      by_contra hne
      have hgf : g ≠ f := fun he => hne (he ▸ rfl)
      have hmapped := (h.sync p g).2 ⟨hg, hgf, hgp⟩
      rw [hq] at hmapped
      cases hmapped
  · have hmap : (pool.insertMap q f).pageMap p = pool.pageMap p := by
      simp [FramePool.insertMap, hp]
    rw [hmap, h.sync p g]
    constructor
    · rintro ⟨h1, -, h3⟩
      exact ⟨h1, h3⟩
    · rintro ⟨h1, h3⟩
      refine ⟨h1, ?_, h3⟩
      rintro rfl
      exact hp (h3.symm.trans hno)

variable {rest : List Nat}

theorem Linked.addToLruHead_free (h : pool.Linked) (hfree : pool.free = f :: rest) :
    ({ pool with free := rest }.addToLruHead f).Linked := by
  have hf : f ∉ pool.lru := h.disjoint f (hfree ▸ mem_cons_self)
  have hn := h.free
  rw [hfree] at hn
  obtain ⟨hfr, hrest⟩ := nodup_cons.1 hn
  refine ⟨nodup_cons.2 ⟨hf, h.lru⟩, hrest, ?_, ?_⟩
  · intro g hg hgl
    obtain rfl | hgl := mem_cons.1 hgl
    · exact hfr hg
    · exact h.disjoint g (hfree ▸ mem_cons_of_mem _ hg) hgl
  · intro x hx
    refine .inl ?_
    simp only [addToLruHead] at hx ⊢
    split_ifs at hx with hl
    · cases hx
      exact mem_cons_self
    · exact mem_cons_of_mem _ ((h.hand x hx).resolve_right fun hr => hl hr.1)

/-- Taking a frame out of the list and putting it back at the head. -/
theorem Linked.relink (h : pool.Linked) (hf : f ∈ pool.lru) (q : PageNo) :
    (((pool.removeFromLruList f).eraseMap q).addToLruHead f).Linked := by
  refine ⟨nodup_cons.2 ⟨h.lru.not_mem_erase, h.lru.erase f⟩, h.free, ?_, ?_⟩
  · intro g hg hgl
    obtain rfl | hgl := mem_cons.1 hgl
    · exact h.disjoint g hg hf
    · exact h.disjoint g hg (mem_of_mem_erase hgl)
  · intro x hx
    refine .inl ?_
    have hback : ∀ y ∈ pool.lru, y ∈ f :: pool.lru.erase f := by
      intro y hy
      by_cases hyf : y = f
      · exact hyf ▸ mem_cons_self
      · exact mem_cons_of_mem _ ((mem_erase_of_ne hyf).2 hy)
    have hne : pool.lru ≠ [] := ne_nil_of_mem hf
    have hhand : (((pool.removeFromLruList f).eraseMap q).addToLruHead f).clockHand =
        if pool.lru.erase f = [] then some f
        else if pool.clockHand = some f then some (pool.advance f) else pool.clockHand := rfl
    rw [hhand] at hx
    split_ifs at hx
    · cases hx
      exact mem_cons_self
    · cases hx
      exact hback _ (advance_mem hf)
    · exact hback x ((h.hand x hx).resolve_right fun hr => hne hr.1)

theorem InSync.relink (h : pool.InSync) (hf : f ∈ pool.lru) :
    (((pool.removeFromLruList f).eraseMap (pool.frames f).pageNo).addToLruHead f).Claimed f := by
  refine ⟨mem_cons_self, fun p g => ?_⟩
  have hmem : g ∈ f :: pool.lru.erase f ∧ g ≠ f ↔ g ∈ pool.lru ∧ g ≠ f := by
    rw [mem_cons]
    constructor
    · rintro ⟨he | hg, hne⟩
      · exact absurd he hne
      · exact ⟨mem_of_mem_erase hg, hne⟩
    · rintro ⟨hg, hne⟩
      exact ⟨.inr ((mem_erase_of_ne hne).2 hg), hne⟩
  show update pool.pageMap (pool.frames f).pageNo none p = some g ↔
    g ∈ f :: pool.lru.erase f ∧ g ≠ f ∧ (pool.frames g).pageNo = p
  rw [← and_assoc, hmem]
  by_cases hp : p = (pool.frames f).pageNo
  · subst hp
    rw [update_self]
    constructor
    · nofun
    · rintro ⟨⟨hg, hne⟩, hgp⟩
      have h1 := (h _ g).2 ⟨hg, hgp⟩
      have h2 := (h _ f).2 ⟨hf, rfl⟩
      exact absurd (some.inj (h1.symm.trans h2)) hne
  · rw [update_of_ne hp, h p g]
    constructor
    · rintro ⟨hg, hgp⟩
      refine ⟨⟨hg, ?_⟩, hgp⟩
      rintro rfl
      exact hp hgp.symm
    · rintro ⟨⟨hg, -⟩, hgp⟩
      exact ⟨hg, hgp⟩

theorem InSync.addToLruHead_free (h : pool.InSync) (hf : f ∉ pool.lru) :
    ({ pool with free := rest }.addToLruHead f).Claimed f := by
  refine ⟨mem_cons_self, fun p g => (h p g).trans ?_⟩
  show _ ↔ g ∈ f :: pool.lru ∧ g ≠ f ∧ (pool.frames g).pageNo = p
  constructor
  · rintro ⟨hg, hgp⟩
    exact ⟨mem_cons_of_mem _ hg, fun he => hf (he ▸ hg), hgp⟩
  · rintro ⟨hg, hne, hgp⟩
    exact ⟨(mem_cons.1 hg).resolve_left hne, hgp⟩

/-- What `claim_frame_for_reuse` does: it fails and changes nothing, or it leaves one frame
    claimed; no page is mapped that was not. -/
structure ClaimSpec (pool : FramePool α) (r : Except PoolError Nat) (pool' : FramePool α) :
    Prop where
  linked : pool'.Linked
  unmapped : ∀ p, pool.pageMap p = none → pool'.pageMap p = none
  failed : ∀ e, r = .error e → e = .allPinned ∧ pool.Keeps pool'
  claimed : ∀ f, r = .ok f → pool.InSync → pool'.Claimed f

variable {r : Except PoolError Nat}

theorem claimFrameForReuse_spec (h : pool.Linked) (hc : pool.claimFrameForReuse = some (r, pool')) :
    pool.ClaimSpec r pool' := by
  unfold claimFrameForReuse at hc
  split at hc
  · rename_i f rest hfree
    split_ifs at hc
    cases hc
    have hf : f ∉ pool.lru := h.disjoint f (hfree ▸ mem_cons_self)
    refine ⟨(h.addToLruHead_free hfree).keeps (keeps_wLatch _ _) rfl, fun p hp => hp, nofun, ?_⟩
    rintro _ ⟨⟩ hs
    exact (hs.addToLruHead_free hf).keeps (keeps_wLatch _ _)
  · rename_i hfree
    obtain ⟨hk, hl, hmem⟩ := findVictimPage_spec h hfree
    split at hc
    · rename_i pool1 hv
      cases hc
      rw [hv] at hl hk
      refine ⟨hl, fun p hp => hk.pageMap ▸ hp, ?_, nofun⟩
      rintro _ ⟨⟩
      exact ⟨rfl, hk⟩
    · rename_i f pool1 hv
      cases hc
      rw [hv] at hl hk hmem
      have hw := keeps_wLatch pool1 f
      have hf : f ∈ (pool1.wLatch f).lru := by
        rw [hw.lru, hk.lru]
        exact hmem f rfl
      rw [← hw.pageNo f]
      obtain ⟨hkb, hhand⟩ := keeps_writeBack
        ((((pool1.wLatch f).removeFromLruList f).eraseMap ((pool1.wLatch f).frames f).pageNo
          ).addToLruHead f) ((pool1.wLatch f).frames f).pageNo f
      refine ⟨((hl.keeps hw rfl).relink hf _).keeps hkb hhand, ?_, nofun, ?_⟩
      · intro p hp
        rw [hkb.pageMap]
        show update (pool1.wLatch f).pageMap _ none p = none
        rw [hw.pageMap, hk.pageMap]
        by_cases he : p = ((pool1.wLatch f).frames f).pageNo
        · rw [he, update_self]
        · rw [update_of_ne he, hp]
      · rintro _ ⟨⟩ hs
        exact (((hs.keeps hk).keeps hw).relink hf).keeps hkb

/-! ## The calls -/

/-- What a call does: the lists stay in order, and if they agreed with the map before, they do so
    after exactly when the call does not throw. -/
structure CallSpec (pool : FramePool α) (throws : Prop) (pool' : FramePool α) : Prop where
  linked : pool'.Linked
  inSync : pool.InSync → (pool'.InSync ↔ ¬ throws)

theorem CallSpec.of_keeps (h : pool.Linked) (hk : pool.Keeps pool')
    (hh : pool'.clockHand = pool.clockHand) {throws : Prop} (ht : ¬ throws) :
    pool.CallSpec throws pool' :=
  ⟨h.keeps hk hh, fun hs => iff_of_true (hs.keeps hk) ht⟩

theorem InSync.unmapped (h : pool.InSync) (hq : pool.cached q = none) : pool.pageMap q = none := by
  cases hm : pool.pageMap q with
  | none => rfl
  | some f =>
    have hno := ((h q f).1 hm).2
    rw [cached, hm, bind_some, if_pos hno] at hq
    cases hq

theorem linked_modifyFrame (h : pool.Linked) (f : Nat) (g : PoolFrame α → PoolFrame α) :
    (pool.modifyFrame f g).Linked := ⟨h.lru, h.free, h.disjoint, h.hand⟩

theorem linked_insertMap (h : pool.Linked) (q : PageNo) (f : Nat) : (pool.insertMap q f).Linked :=
  ⟨h.lru, h.free, h.disjoint, h.hand⟩

theorem keeps_wToRLatch (pool : FramePool α) (f : Nat) : pool.Keeps (pool.wToRLatch f) :=
  (keeps_wUnlatch pool f).trans (keeps_rLatch _ f)

theorem fill_data (pool : FramePool α) (f : Nat) (q : PageNo) (image : α) :
    ((pool.fill f q image).frames f).data = image := by
  rw [fill, modifyFrame_self]

/-- The end of a load that goes well. -/
theorem Claimed.fill_insertMap (h : pool.Claimed f) (hq : pool.pageMap q = none) (image : α) :
    (((pool.fill f q image).setReferenced f).insertMap q f).InSync := by
  have hfill : (pool.fill f q image).Claimed f := h.rename _
  have hset := keeps_setReferenced (pool.fill f q image) f
  refine (hfill.keeps hset).insertMap hq ?_
  rw [hset.pageNo, fill, modifyFrame_self]

theorem readPageInternal_spec {writeLatch ioFails : Bool} (h : pool.Linked)
    (hc : pool.readPageInternal ops q writeLatch ioFails = some (r, pool')) :
    pool.CallSpec (pool.cached q = none ∧ ∃ f pool', pool.claimFrameForReuse =
      some (.ok f, pool') ∧ (ioFails = true ∨ ops.parses (pool'.disk q) = false)) pool' := by
  unfold readPageInternal at hc
  split at hc
  · rename_i f hf
    obtain ⟨pool1, h1, hr⟩ := map_eq_some_iff.1 hc
    cases hr
    obtain ⟨hk, hh⟩ := keeps_latchCached h1
    exact .of_keeps h hk hh fun ht => by rw [hf] at ht; cases ht.1
  · rename_i hmiss
    obtain ⟨⟨r1, pool1⟩, hclaim, hr⟩ := map_eq_some_iff.1 hc
    have hspec := claimFrameForReuse_spec h hclaim
    cases r1 with
    | error e =>
      cases hr
      have hk := (hspec.failed e rfl).2
      refine ⟨hspec.linked, fun hs => iff_of_true (hs.keeps hk) ?_⟩
      rintro ⟨-, f, pool2, h2, -⟩
      rw [hclaim] at h2
      cases h2
    | ok f =>
      -- the frame is claimed; the rest of the call decides whether it gets its mapping
      have hthrows : (pool.cached q = none ∧ ∃ f pool', pool.claimFrameForReuse =
          some (.ok f, pool') ∧ (ioFails = true ∨ ops.parses (pool'.disk q) = false)) ↔
          ioFails = true ∨ ops.parses (pool1.disk q) = false := by
        constructor
        · rintro ⟨-, g, pool2, h2, ht⟩
          rw [hclaim] at h2
          cases h2
          exact ht
        · exact fun ht => ⟨hmiss, f, pool1, hclaim, ht⟩
      have hmapped : pool.InSync →
          (((pool1.fill f q (pool1.disk q)).setReferenced f).insertMap q f).InSync := fun hs =>
        (hspec.claimed f rfl hs).fill_insertMap (hspec.unmapped q (hs.unmapped hmiss)) _
      have hlinked : (((pool1.fill f q (pool1.disk q)).setReferenced f).insertMap q f).Linked :=
        linked_insertMap (linked_modifyFrame (linked_modifyFrame hspec.linked _ _) _ _) _ _
      simp only [fill_data] at hr
      split_ifs at hr with hio hparse hlatch
      · cases hr
        refine ⟨linked_modifyFrame hspec.linked _ _, fun hs => ?_⟩
        have hcl := (hspec.claimed f rfl hs).keeps (keeps_wUnlatch pool1 f)
        exact iff_of_false hcl.not_inSync (not_not.2 (hthrows.2 (.inl hio)))
      · cases hr
        have ht : ¬ (ioFails = true ∨ ops.parses (pool1.disk q) = false) := by simp [hio, hparse]
        exact ⟨hlinked, fun hs => iff_of_true (hmapped hs) (mt hthrows.1 ht)⟩
      · cases hr
        have ht : ¬ (ioFails = true ∨ ops.parses (pool1.disk q) = false) := by simp [hio, hparse]
        have hk := keeps_wToRLatch
          (((pool1.fill f q (pool1.disk q)).setReferenced f).insertMap q f) f
        exact ⟨hlinked.keeps hk rfl,
          fun hs => iff_of_true ((hmapped hs).keeps hk) (mt hthrows.1 ht)⟩
      · cases hr
        refine ⟨linked_modifyFrame (linked_modifyFrame hspec.linked _ _) _ _, fun hs => ?_⟩
        have hfill : (pool1.fill f q (pool1.disk q)).Claimed f :=
          (hspec.claimed f rfl hs).rename _
        have hcl := hfill.keeps (keeps_wUnlatch _ f)
        have ht : ops.parses (pool1.disk q) = false := by simpa using hparse
        exact iff_of_false hcl.not_inSync (not_not.2 (hthrows.2 (.inr ht)))

theorem bufPageCp_spec {pageData : α} {r : Except PoolError (Option Nat)} (h : pool.Linked)
    (hc : pool.bufPageCp ops q pageData = some (r, pool')) :
    pool.CallSpec (pool.pageMap q = none ∧ (∃ f pool', pool.claimFrameForReuse =
      some (.ok f, pool')) ∧ ops.parses pageData = false) pool' := by
  unfold bufPageCp at hc
  split at hc
  · rename_i f hf
    cases hc
    exact .of_keeps h (.refl pool) rfl fun ht => by rw [hf] at ht; cases ht.1
  · rename_i hmiss
    obtain ⟨⟨r1, pool1⟩, hclaim, hr⟩ := map_eq_some_iff.1 hc
    have hspec := claimFrameForReuse_spec h hclaim
    cases r1 with
    | error e =>
      cases hr
      have hk := (hspec.failed e rfl).2
      refine ⟨hspec.linked, fun hs => iff_of_true (hs.keeps hk) ?_⟩
      rintro ⟨-, ⟨f, pool2, h2⟩, -⟩
      rw [hclaim] at h2
      cases h2
    | ok f =>
      simp only at hr
      split_ifs at hr with hparse
      · cases hr
        have hk := keeps_wUnlatch (((pool1.fill f q pageData).setReferenced f).insertMap q f) f
        refine ⟨(linked_insertMap (linked_modifyFrame (linked_modifyFrame hspec.linked _ _) _ _)
          _ _).keeps hk rfl, fun hs => iff_of_true ?_ fun ht => ?_⟩
        · exact ((hspec.claimed f rfl hs).fill_insertMap (hspec.unmapped q hmiss) _).keeps hk
        · rw [hparse] at ht
          cases ht.2.2
      · cases hr
        refine ⟨linked_modifyFrame hspec.linked _ _, fun hs => ?_⟩
        have hfill : (pool1.fill f q pageData).Claimed f := (hspec.claimed f rfl hs).rename _
        have ht : ops.parses pageData = false := by simpa using hparse
        exact iff_of_false hfill.not_inSync (not_not.2 ⟨hmiss, ⟨f, pool1, hclaim⟩, ht⟩)

theorem bufPageNew_spec (h : pool.Linked) (hc : pool.bufPageNew ops q = some (r, pool')) :
    pool.CallSpec False pool' := by
  unfold bufPageNew at hc
  split at hc
  · obtain ⟨pool1, h1, hr⟩ := map_eq_some_iff.1 hc
    cases hr
    obtain ⟨hk, hh⟩ := keeps_latchCached h1
    exact .of_keeps h hk hh id
  · rename_i hmiss
    obtain ⟨⟨r1, pool1⟩, hclaim, hr⟩ := map_eq_some_iff.1 hc
    have hspec := claimFrameForReuse_spec h hclaim
    cases r1 with
    | error e =>
      cases hr
      have hk := (hspec.failed e rfl).2
      exact ⟨hspec.linked, fun hs => iff_of_true (hs.keeps hk) id⟩
    | ok f =>
      cases hr
      refine ⟨linked_insertMap (linked_modifyFrame hspec.linked _ _) _ _,
        fun hs => iff_of_true ?_ id⟩
      refine ((hspec.claimed f rfl hs).rename _).insertMap
        (hspec.unmapped q (hs.unmapped hmiss)) ?_
      rw [modifyFrame_self]

theorem Linked.retire (h : pool.Linked) (hf : f ∈ pool.lru) :
    { (pool.removeFromLruList f) with free := pool.free ++ [f] }.Linked := by
  refine ⟨h.lru.erase f, ?_, ?_, ?_⟩
  · rw [nodup_append]
    refine ⟨h.free, nodup_singleton f, ?_⟩
    intro a ha b hb he
    rw [mem_singleton] at hb
    exact h.disjoint a ha ((he.trans hb).symm ▸ hf)
  · intro g hg hgl
    obtain hg | hg := mem_append.1 hg
    · exact h.disjoint g hg (mem_of_mem_erase hgl)
    · rw [mem_singleton] at hg
      subst hg
      exact h.lru.not_mem_erase hgl
  · intro x hx
    have hfree : pool.free ++ [f] ≠ [] := by simp
    by_cases hlast : pool.lru.erase f = []
    · exact .inr ⟨hlast, hfree⟩
    refine .inl ?_
    have hhand : (pool.removeFromLruList f).clockHand =
        if pool.clockHand = some f then some (pool.advance f) else pool.clockHand := rfl
    change (pool.removeFromLruList f).clockHand = some x at hx
    rw [hhand] at hx
    have hne : pool.lru ≠ [f] := by
      rintro he
      rw [he] at hlast
      exact hlast (by simp)
    split_ifs at hx with hc
    · cases hx
      exact (mem_erase_of_ne (advance_ne h.lru hf hne)).2 (advance_mem hf)
    · have hxl := (h.hand x hx).resolve_right fun hr => ne_nil_of_mem hf hr.1
      have hxf : x ≠ f := fun he => hc (he ▸ hx)
      exact (mem_erase_of_ne hxf).2 hxl

theorem InSync.retire (h : pool.InSync) (hl : pool.lru.Nodup) (hq : pool.pageMap q = some f)
    (free : List Nat) : { ((pool.eraseMap q).removeFromLruList f) with free := free }.InSync := by
  intro p g
  show update pool.pageMap q none p = some g ↔
    g ∈ pool.lru.erase f ∧ (pool.frames g).pageNo = p
  obtain ⟨-, hno⟩ := (h q f).1 hq
  by_cases hp : p = q
  · subst hp
    rw [update_self]
    constructor
    · nofun
    · rintro ⟨hg, hgp⟩
      have hmap := (h p g).2 ⟨mem_of_mem_erase hg, hgp⟩
      obtain rfl := some.inj (hq.symm.trans hmap)
      exact absurd hg hl.not_mem_erase
  · rw [update_of_ne hp, h p g]
    constructor
    · rintro ⟨hg, hgp⟩
      have hgf : g ≠ f := by
        rintro rfl
        exact hp (hgp.symm.trans hno)
      exact ⟨(mem_erase_of_ne hgf).2 hg, hgp⟩
    · rintro ⟨hg, hgp⟩
      exact ⟨mem_of_mem_erase hg, hgp⟩

theorem retirePage_spec (h : pool.Linked) (hs : pool.InSync) (q : PageNo) :
    pool.CallSpec False (pool.retirePage q).2 := by
  unfold retirePage
  split
  · exact .of_keeps h (.refl pool) rfl id
  · rename_i f hf
    split_ifs
    · exact .of_keeps h (.refl pool) rfl id
    · have hmem := ((hs q f).1 hf).1
      have hk := keeps_modifyFrame { ((pool.eraseMap q).removeFromLruList f) with
        free := pool.free ++ [f] } f (g := fun fr =>
          { fr with dirty := false, referenced := false }) fun _ => rfl
      have hl := h.retire hmem
      have hl' : { ((pool.eraseMap q).removeFromLruList f) with
          free := pool.free ++ [f] }.Linked := ⟨hl.lru, hl.free, hl.disjoint, hl.hand⟩
      exact ⟨hl'.keeps hk rfl, fun hs => iff_of_true ((hs.retire h.lru hf _).keeps hk) id⟩

/-- What one call does to a pool whose map and list agree. -/
theorem step_spec (h : pool.Linked) (hs : pool.InSync) {c : PoolCall α}
    (hc : pool.step ops c = some pool') : pool'.Linked ∧ (pool'.InSync ↔ ¬ pool.Throws ops c) := by
  obtain ⟨⟨e, pool1⟩, hcall, rfl⟩ := map_eq_some_iff.1 hc
  have hspec : pool.CallSpec (pool.Throws ops c) pool1 := by
    cases c with
    | bufPageRead q ioFails =>
      obtain ⟨r, hr, he⟩ := map_eq_some_iff.1 hcall
      cases he
      exact readPageInternal_spec h hr
    | bufPageReadForSlotWrite q ioFails =>
      obtain ⟨r, hr, he⟩ := map_eq_some_iff.1 hcall
      cases he
      exact readPageInternal_spec h hr
    | bufPageNew q =>
      obtain ⟨r, hr, he⟩ := map_eq_some_iff.1 hcall
      cases he
      exact bufPageNew_spec h hr
    | bufPageCp q pageData =>
      obtain ⟨r, hr, he⟩ := map_eq_some_iff.1 hcall
      cases he
      exact bufPageCp_spec h hr
    | retirePage q =>
      cases hcall
      exact retirePage_spec h hs q
    | hold frames disk =>
      cases hcall
      refine CallSpec.of_keeps h ?_ ?_ ?_
      · exact ⟨rfl, rfl, rfl, fun _ => rfl⟩
      · rfl
      · exact id
  exact ⟨hspec.linked, hspec.inSync hs⟩

section

variable (n : Nat) (blank : α) (disk : PageNo → α)

theorem start_linked : (start n blank disk).Linked :=
  ⟨nodup_nil, nodup_range, fun _ _ => not_mem_nil, nofun⟩

theorem start_inSync : (start n blank disk).InSync := by
  intro p f
  constructor
  · nofun
  · exact fun h => absurd h.1 not_mem_nil

end

variable {es : List (PoolCall α)}

/-- Along calls that do not throw, the lists stay in order and agree with the map. -/
theorem runAll_inSync : ∀ {pool pool' : FramePool α}, pool.Linked →
    pool.InSync → (∀ es1 e, es1 ++ [e] <+: es → ∀ p1, runAll (step ops) pool es1 = some p1 →
      ¬ p1.Throws ops e) → runAll (step ops) pool es = some pool' →
    pool'.Linked ∧ pool'.InSync := by
  induction es with
  | nil =>
    intro pool pool' h hs _ hr
    cases hr
    exact ⟨h, hs⟩
  | cons e es ih =>
    intro pool pool' h hs hno hr
    obtain ⟨pool1, h1, hr⟩ := bind_eq_some_iff.1 hr
    have hthrow : ¬ pool.Throws ops e := hno [] e (prefix_append [e] es) pool rfl
    obtain ⟨hl1, hs1⟩ := step_spec h hs h1
    refine ih hl1 (hs1.2 hthrow) ?_ hr
    intro es1 e1 hpre p1 hp1
    exact hno (e :: es1) e1 (cons_prefix_cons.2 ⟨rfl, hpre⟩) p1
      (bind_eq_some_iff.2 ⟨pool1, h1, hp1⟩)

/-- Along a run whose states all agree with their map, the lists stay in order. -/
theorem runAll_linked : ∀ {pool pool' : FramePool α}, pool.Linked →
    (∀ es1, es1 <+: es → ∀ p1, runAll (step ops) pool es1 = some p1 → p1.InSync) →
    runAll (step ops) pool es = some pool' → pool'.Linked := by
  induction es with
  | nil =>
    intro pool pool' h _ hr
    cases hr
    exact h
  | cons e es ih =>
    intro pool pool' h hall hr
    obtain ⟨pool1, h1, hr⟩ := bind_eq_some_iff.1 hr
    refine ih (step_spec h (hall [] nil_prefix pool rfl) h1).1 ?_ hr
    intro es1 hpre p1 hp1
    exact hall (e :: es1) (cons_prefix_cons.2 ⟨rfl, hpre⟩) p1
      (bind_eq_some_iff.2 ⟨pool1, h1, hp1⟩)

end FramePool

open FramePool in
/-- The page map and the LRU list agree in every state of a run exactly if no call of the run ends
    in an exception of `read_page` or `self_parse`. -/
theorem inSync_iff {α : Type} {ops : PageOps α} {n : Nat} {blank : α} {disk : PageNo → α}
    {es : List (PoolCall α)} {pool : FramePool α}
    (run : runAll (step ops) (start n blank disk) es = some pool) :
    (∀ es1, es1 <+: es → ∀ p1, runAll (step ops) (start n blank disk) es1 = some p1 →
      p1.InSync) ↔
    ∀ es1 e, es1 ++ [e] <+: es → ∀ p1, runAll (step ops) (start n blank disk) es1 = some p1 →
      ¬ p1.Throws ops e := by
  constructor
  · intro hall es1 e hpre p1 hp1
    have hpre1 : es1 <+: es := (prefix_append es1 [e]).trans hpre
    have hl1 := runAll_linked (start_linked n blank disk)
      (fun es2 h2 => hall es2 (h2.trans hpre1)) hp1
    -- the run goes on after the call
    obtain ⟨rest, rfl⟩ := hpre
    rw [append_assoc, runAll_append, hp1, Option.bind_some] at run
    obtain ⟨p2, h2, -⟩ := Option.bind_eq_some_iff.1 run
    have hs2 : p2.InSync := by
      refine hall (es1 ++ [e]) ⟨rest, rfl⟩ p2 ?_
      rw [runAll_append, hp1, Option.bind_some]
      exact Option.bind_eq_some_iff.2 ⟨p2, h2, rfl⟩
    exact (step_spec hl1 (hall es1 hpre1 p1 hp1) h2).2.1 hs2
  · intro hno es1 hpre p1 hp1
    exact (runAll_inSync (start_linked n blank disk) (start_inSync n blank disk)
      (fun es2 e h2 => hno es2 e (h2.trans hpre)) hp1).2

/-- `csr_page_t`: `self_parse` checks the header, `reinit` keeps the bytes. -/
def csrPageOps (cfg : Config) : PageOps (List Nat) :=
  ⟨fun data => (parseFromPageData cfg data).isOk, id, false⟩

/-- `delta_page_t`: `self_parse` takes every image, `reinit` clears it and marks the page dirty. -/
def deltaPageOps : PageOps (List Nat) := ⟨fun _ => true, fun _ => [], true⟩

/-- A delta page is read and given back, another one is made, and the first is retired. -/
def deltaCalls : List (PoolCall (List Nat)) :=
  [.bufPageRead 3 false, .hold (fun _ => ⟨0, 0, 0, false, true, false, []⟩) (fun _ => []),
    .bufPageNew 4, .retirePage 3]

open FramePool in
theorem inSync_delta : ∃ pool,
    runAll (step deltaPageOps) (start 2 [] fun _ => []) deltaCalls = some pool ∧ pool.InSync := by
  have hsome : (runAll (step deltaPageOps) (start 2 [] fun _ => []) deltaCalls).isSome = true := by
    decide +kernel
  obtain ⟨pool, hpool⟩ := Option.isSome_iff_exists.1 hsome
  refine ⟨pool, hpool, (inSync_iff hpool).2 ?_ _ (prefix_refl _) pool hpool⟩
  intro es1 e hpre p1 _
  have he : e ∈ deltaCalls := hpre.subset (mem_append_right _ mem_cons_self)
  simp only [deltaCalls, mem_cons, not_mem_nil, or_false] at he
  rcases he with rfl | rfl | rfl | rfl
  · rintro ⟨-, f, pool', -, h | h⟩
    · cases h
    · cases h
  · exact id
  · exact id
  · exact id

/-- CSR pages of 64 bytes, and a file whose page 7 has an edge but no vertex. -/
def brokenConfig : Config := ⟨64, 64, 0, 8, 1, 0, false⟩

def brokenFile (p : PageNo) : List Nat := if p = 7 then [0, 0, 1, 0] else []

/-- The load of the broken page leaves frame 0 in the list under number 7, without a mapping. The
    page is rewritten and loaded into frame 1, whose reader stays. A load of page 8 then evicts
    frame 0, and with it the mapping of frame 1; the next load puts page 7 into a second frame. -/
def orphanCalls : List (PoolCall (List Nat)) :=
  [.bufPageRead 7 false, .hold (fun _ => ⟨0, 0, 0, false, false, false, []⟩) (fun _ => []),
    .bufPageRead 7 false, .bufPageRead 8 false,
    .hold (fun f => ⟨0, if f = 1 then 1 else 0, if f = 1 then 1 else 0, false, false, false, []⟩)
      (fun _ => []),
    .bufPageRead 7 false]

open FramePool in
theorem inSync_orphan :
    ¬ ∀ (ops : PageOps (List Nat)) (n : Nat) (blank : List Nat) (disk : PageNo → List Nat)
      (es : List (PoolCall (List Nat))) (pool : FramePool (List Nat)),
      runAll (step ops) (start n blank disk) es = some pool → pool.InSync := by
  intro hall
  have hsome : (runAll (step (csrPageOps brokenConfig)) (start 2 [] brokenFile)
      [.bufPageRead 7 false]).isSome = true := by decide +kernel
  have hmap : (runAll (step (csrPageOps brokenConfig)) (start 2 [] brokenFile)
      [.bufPageRead 7 false]).map (fun pool => (pool.lru, (pool.frames 0).pageNo,
        pool.pageMap 7)) = some ([0], 7, none) := by decide +kernel
  obtain ⟨pool, hpool⟩ := Option.isSome_iff_exists.1 hsome
  rw [hpool] at hmap
  obtain ⟨hlru, hno, hnone⟩ : pool.lru = [0] ∧ (pool.frames 0).pageNo = 7 ∧
      pool.pageMap 7 = none := by
    simpa only [Option.map_some, Option.some.injEq, Prod.mk.injEq] using hmap
  have hsync := (hall _ _ _ _ _ pool hpool 7 0).2 ⟨hlru ▸ mem_cons_self, hno⟩
  rw [hnone] at hsync
  cases hsync

-- after the whole run two frames hold page 7
example : (runAll (FramePool.step (csrPageOps brokenConfig)) (.start 2 [] brokenFile)
    orphanCalls).map (fun pool => (pool.lru, (pool.frames 0).pageNo, (pool.frames 1).pageNo)) =
      some ([0, 1], 7, 7) := by
  decide +kernel

end BwGraph
