import Mathlib.Logic.Function.Basic
import Mathlib.Data.Finset.Basic
import Mathlib.Data.List.Nodup
import BwGraph.Common.Type
import BwGraph.Lib.Run

/-
  Loads and evictions of `buf_pool_t` (`buf_pool.cc`) by any number of threads.
  `read_page_internal` is a sequence of steps: the lookup, the registration as loader, a second
  lookup, the claim of a frame, the read from disk, and the installation under the page's number.
  `claim_frame_for_reuse` chooses, unmaps and relinks the victim under the list latches in one
  step; a dirty victim is written back in a later one. A lookup is one step with the latch it
  waits for, since it is verified under the latch. The latches name their holders here, and
  `loading_pages_` the loader of a page.

  `last p` is what a thread last left in `p`. Between the unmapping of a dirty page and its
  write-back only the claimed frame has that, and another thread may read the old image. In every
  run without such a read, what `buf_page_read` returns is the last content
  (`bufPageRead_last`).
-/

namespace BwGraph

open Function List Option

/-- Where a thread is in `read_page_internal(p, w)`. The victim of a claim that has still to be
    written back is in `victim`. -/
inductive LoadPc where
  | idle
  | missed (p : PageNo) (w : Bool)
  | waiting (p : PageNo) (w : Bool)
  | registered (p : PageNo) (w : Bool)
  | loader (p : PageNo) (w : Bool)
  | claimed (p : PageNo) (w : Bool) (f : Nat) (victim : Option PageNo)
  | filled (p : PageNo) (w : Bool) (f : Nat)
  | holding (p : PageNo) (w : Bool) (f : Nat)
  deriving DecidableEq, Repr

namespace LoadPc

/-- The frame whose write latch the thread has. -/
def owned : LoadPc → Option Nat
  | claimed _ _ f _ | filled _ _ f | holding _ true f => some f
  | _ => none

/-- The frame on which the thread has a read latch. -/
def shared : LoadPc → Option Nat
  | holding _ false f => some f
  | _ => none

/-- The page the thread is registered for. -/
def loads : LoadPc → Option PageNo
  | registered p _ | loader p _ | claimed p _ _ _ | filled p _ _ => some p
  | _ => none

/-- The page the thread has not found as its loader. -/
def misses : LoadPc → Option PageNo
  | loader p _ | claimed p _ _ _ | filled p _ _ => some p
  | _ => none

/-- The page the thread has, and its frame. -/
def holds : LoadPc → Option (PageNo × Nat)
  | holding p _ f => some (p, f)
  | _ => none

/-- The frame the thread has claimed and not yet installed. -/
def takes : LoadPc → Option Nat
  | claimed _ _ f _ | filled _ _ f => some f
  | _ => none

/-- The page the thread has read into its claimed frame, and the frame. -/
def fills : LoadPc → Option (PageNo × Nat)
  | filled p _ f => some (p, f)
  | _ => none

/-- The page the thread has unmapped and has still to write back, and its frame. -/
def leaves : LoadPc → Option (PageNo × Nat)
  | claimed _ _ f (some q) => some (q, f)
  | _ => none

variable {pc : LoadPc}

variable {f : Nat} {p : PageNo} {pcs : Nat → LoadPc}

theorem latched_of_holds (h : pc.holds = some (p, f)) : pc.owned = some f ∨ pc.shared = some f := by
  cases pc with
  | holding p' w f' =>
    cases h
    cases w with
    | true => exact .inl rfl
    | false => exact .inr rfl
  | _ => cases h

theorem owned_of_takes (h : pc.takes = some f) : pc.owned = some f := by
  cases pc with
  | claimed p w f' v =>
    cases h
    rfl
  | filled p w f' =>
    cases h
    rfl
  | _ => cases h

theorem takes_of_leaves {q : PageNo} (h : pc.leaves = some (q, f)) : pc.takes = some f := by
  cases pc with
  | claimed p w f' v =>
    cases v with
    | none => cases h
    | some q' =>
      cases h
      rfl
  | _ => cases h

theorem takes_of_fills (h : pc.fills = some (p, f)) : pc.takes = some f ∧ pc.misses = some p := by
  cases pc with
  | filled p' w f' =>
    cases h
    exact ⟨rfl, rfl⟩
  | _ => cases h

theorem loads_of_misses (h : pc.misses = some p) : pc.loads = some p := by
  cases pc with
  | loader p' w =>
    cases h
    rfl
  | claimed p' w f v =>
    cases h
    rfl
  | filled p' w f =>
    cases h
    rfl
  | _ => cases h

/-- A view of the threads that the step of one thread does not change. -/
theorem update_view {β : Type} (g : LoadPc → β) {t : Nat} (h : g pc = g (pcs t)) (t' : Nat) :
    g (update pcs t pc t') = g (pcs t') := by
  by_cases ht : t' = t
  · subst ht
    rw [update_self, h]
  · rw [update_of_ne ht]

/-- What a view of the threads shows after the step of one thread. -/
theorem view_update {β : Type} {g : LoadPc → Option β} {t t' : Nat} {x : β}
    (h : g (update pcs t pc t') = some x) :
    t' = t ∧ g pc = some x ∨ t' ≠ t ∧ g (pcs t') = some x := by
  by_cases ht : t' = t
  · subst ht
    rw [update_self] at h
    exact .inl ⟨rfl, h⟩
  · rw [update_of_ne ht] at h
    exact .inr ⟨ht, h⟩

end LoadPc

/-- The part of a frame that a load and an eviction touch. -/
structure LoadFrame (α : Type) where
  pageNo : PageNo
  dirty : Bool
  data : α

/-- The pool, the file and the threads. `last` is not in the source: the content that was last
    left in a page under its latch. -/
structure LoadState (α : Type) where
  frames : Nat → LoadFrame α
  pageMap : PageNo → Option Nat
  lru : List Nat
  free : List Nat
  disk : PageNo → α
  writer : Nat → Option Nat
  readers : Nat → Finset Nat
  loading : PageNo → Option Nat
  pc : Nat → LoadPc
  last : PageNo → α

/-- One step of a thread. The claim names the frame that `find_victim_page` or the free list
    gives. -/
inductive LoadEvent (α : Type) where
  | lookup (t : Nat) (p : PageNo) (w : Bool)
  | register (t : Nat)
  | relookup (t : Nat)
  | claim (t f : Nat)
  | allPinned (t : Nat)
  | writeBack (t : Nat)
  | readPage (t : Nat)
  | install (t : Nat)
  | modify (t : Nat) (a : α)
  | release (t : Nat)

namespace LoadState

variable {α : Type}

/-- The thread goes on. -/
def goto (s : LoadState α) (t : Nat) (pc : LoadPc) : LoadState α :=
  { s with pc := Function.update s.pc t pc }

/-- `try_w_latch` would succeed. -/
def unlatched (s : LoadState α) (f : Nat) : Bool := s.writer f = none && s.readers f = ∅

/-- Take the latch of a frame for a page, when it is granted. -/
def latch (s : LoadState α) (t : Nat) (p : PageNo) (w : Bool) (f : Nat) : Option (LoadState α) :=
  if w then
    if s.unlatched f then
      some ({ s with writer := Function.update s.writer f (some t) }.goto t (.holding p w f))
    else none
  else if s.writer f = none then
    some ({ s with readers := Function.update s.readers f (insert t (s.readers f)) }.goto t
      (.holding p w f))
  else none

/-- `finish_page_load`. -/
def finishPageLoad (s : LoadState α) (p : PageNo) : LoadState α :=
  { s with loading := Function.update s.loading p none }

/-- `try_latch_cached_page`: the thread has the page, or goes on at `miss`. -/
def tryLatch (s : LoadState α) (t : Nat) (p : PageNo) (w : Bool) (miss : LoadPc) :
    Option (LoadState α) :=
  match s.pageMap p with
  | some f => s.latch t p w f
  | none => some (s.goto t miss)

/-- The first half of `claim_frame_for_reuse`, under the list latches. -/
def claimFrame (s : LoadState α) (t : Nat) (p : PageNo) (w : Bool) (f : Nat) :
    Option (LoadState α) :=
  if s.unlatched f = false then none
  else
    match s.free with
    | g :: rest =>
      if g = f then
        some ({ s with
          free := rest
          lru := f :: s.lru
          writer := Function.update s.writer f (some t) }.goto t (.claimed p w f none))
      else none
    | [] =>
      if f ∈ s.lru then
        let q := (s.frames f).pageNo
        some ({ s with
          lru := f :: s.lru.erase f
          pageMap := Function.update s.pageMap q none
          writer := Function.update s.writer f (some t) }.goto t
            (.claimed p w f (if (s.frames f).dirty then some q else none)))
      else none

/-- The second half: the write-back of the victim. -/
def writeBack (s : LoadState α) (t : Nat) (p : PageNo) (w : Bool) (f : Nat) (q : PageNo) :
    LoadState α :=
  { s with
    disk := Function.update s.disk q (s.frames f).data
    frames := Function.update s.frames f { s.frames f with dirty := false } }.goto t
      (.claimed p w f none)

/-- `read_page` into the claimed frame. -/
def readPage (s : LoadState α) (t : Nat) (p : PageNo) (w : Bool) (f : Nat) : LoadState α :=
  { s with frames := Function.update s.frames f { s.frames f with data := s.disk p } }.goto t
    (.filled p w f)

/-- The frame gets its number and its mapping, the load is finished, and a reader converts its
    latch. -/
def install (s : LoadState α) (t : Nat) (p : PageNo) (w : Bool) (f : Nat) : LoadState α :=
  { s with
    frames := Function.update s.frames f { s.frames f with pageNo := p }
    pageMap := Function.update s.pageMap p ((s.pageMap p).or (some f))
    loading := Function.update s.loading p none
    writer := if w then s.writer else Function.update s.writer f none
    readers := if w then s.readers else
      Function.update s.readers f (insert t (s.readers f)) }.goto t (.holding p w f)

/-- A write under the latch, which marks the page dirty. -/
def modify (s : LoadState α) (p : PageNo) (f : Nat) (a : α) : LoadState α :=
  { s with
    frames := Function.update s.frames f { s.frames f with data := a, dirty := true }
    last := Function.update s.last p a }

/-- `w_unlatch` or `r_unlatch`. -/
def release (s : LoadState α) (t : Nat) (w : Bool) (f : Nat) : LoadState α :=
  { s with
    writer := if w then Function.update s.writer f none else s.writer
    readers := if w then s.readers else
      Function.update s.readers f ((s.readers f).erase t) }.goto t .idle

/-- One step. -/
def step (s : LoadState α) : LoadEvent α → Option (LoadState α)
  | .lookup t p w =>
    match s.pc t with
    | .idle => s.tryLatch t p w (.missed p w)
    | .waiting p' w' =>
      if p' = p ∧ w' = w ∧ s.loading p = none then s.tryLatch t p w (.missed p w) else none
    | _ => none
  | .register t =>
    match s.pc t with
    | .missed p w =>
      if s.loading p = none then
        some ({ s with loading := Function.update s.loading p (some t) }.goto t (.registered p w))
      else some (s.goto t (.waiting p w))
    | _ => none
  | .relookup t =>
    match s.pc t with
    | .registered p w => (s.tryLatch t p w (.loader p w)).map fun s' =>
        if s.pageMap p = none then s' else s'.finishPageLoad p
    | _ => none
  | .claim t f =>
    match s.pc t with
    | .loader p w => s.claimFrame t p w f
    | _ => none
  | .allPinned t =>
    match s.pc t with
    | .loader p _ => if s.free = [] then some ((s.finishPageLoad p).goto t .idle) else none
    | _ => none
  | .writeBack t =>
    match s.pc t with
    | .claimed p w f (some q) => some (s.writeBack t p w f q)
    | _ => none
  | .readPage t =>
    match s.pc t with
    | .claimed p w f none => some (s.readPage t p w f)
    | _ => none
  | .install t =>
    match s.pc t with
    | .filled p w f => some (s.install t p w f)
    | _ => none
  | .modify t a =>
    match s.pc t with
    | .holding p _ f => some (s.modify p f a)
    | _ => none
  | .release t =>
    match s.pc t with
    | .holding _ w f => some (s.release t w f)
    | _ => none

/-- The pool as `buf_pool_init` leaves it, over a file. -/
def start (n : Nat) (blank : α) (disk : PageNo → α) : LoadState α where
  frames := fun _ => ⟨0, false, blank⟩
  pageMap := fun _ => none
  lru := []
  free := List.range n
  disk := disk
  writer := fun _ => none
  readers := fun _ => ∅
  loading := fun _ => none
  pc := fun _ => .idle
  last := disk

/-- The step does not read a page that some thread has unmapped and not yet written back. -/
def Settled (s : LoadState α) : LoadEvent α → Prop
  | .readPage t => ∀ p, (s.pc t).loads = some p → ∀ t' f, (s.pc t').leaves ≠ some (p, f)
  | _ => True

/-! ## Latches and loaders -/

/-- The latches are those of the threads. -/
structure Latched (s : LoadState α) : Prop where
  writer : ∀ t f, s.writer f = some t ↔ (s.pc t).owned = some f
  reader : ∀ t f, t ∈ s.readers f ↔ (s.pc t).shared = some f
  excl : ∀ f t, s.writer f = some t → s.readers f = ∅

/-- The loading set is that of the threads. -/
def Registered (s : LoadState α) : Prop := ∀ t p, s.loading p = some t ↔ (s.pc t).loads = some p

variable {s s' : LoadState α} {t : Nat} {pc : LoadPc}

theorem Latched.goto (h : s.Latched) (pc : LoadPc) (ho : pc.owned = (s.pc t).owned)
    (hs : pc.shared = (s.pc t).shared) (hw : s'.writer = s.writer) (hr : s'.readers = s.readers)
    (hpc : s'.pc = update s.pc t pc) : s'.Latched := by
  refine ⟨fun t' f => ?_, fun t' f => ?_, ?_⟩
  · rw [hw, hpc, LoadPc.update_view _ ho]
    exact h.writer t' f
  · rw [hr, hpc, LoadPc.update_view _ hs]
    exact h.reader t' f
  · rw [hw, hr]
    exact h.excl

theorem Registered.goto (h : s.Registered) (pc : LoadPc) (hl : pc.loads = (s.pc t).loads)
    (hld : s'.loading = s.loading) (hpc : s'.pc = update s.pc t pc) : s'.Registered := by
  intro t' p
  rw [hld, hpc, LoadPc.update_view _ hl]
  exact h t' p

variable {f : Nat} {p : PageNo}

section

variable (h : s.Latched)
include h

/-- No thread has anything of an unlatched frame. -/
theorem Latched.nobody (hf : s.unlatched f = true) (t : Nat) :
    (s.pc t).owned ≠ some f ∧ (s.pc t).shared ≠ some f := by
  simp only [unlatched, Bool.and_eq_true, decide_eq_true_eq] at hf
  constructor
  · intro ho
    have hw := (h.writer t f).2 ho
    rw [hf.1] at hw
    cases hw
  · intro hs
    have hr := (h.reader t f).2 hs
    rw [hf.2] at hr
    exact absurd hr (Finset.notMem_empty t)

/-- A thread without a latch takes the write latch of an unlatched frame. -/
theorem Latched.acquire (hf : s.unlatched f = true) (hno : (s.pc t).owned = none)
    (hns : (s.pc t).shared = none) (ho : pc.owned = some f) (hs : pc.shared = none)
    (hw : s'.writer = update s.writer f (some t)) (hr : s'.readers = s.readers)
    (hpc : s'.pc = update s.pc t pc) : s'.Latched := by
  have hfree : s.writer f = none ∧ s.readers f = ∅ := by
    simpa only [unlatched, Bool.and_eq_true, decide_eq_true_eq] using hf
  refine ⟨fun t' f' => ?_, fun t' f' => ?_, fun f' t' => ?_⟩
  · have hold := h.writer t' f'
    rw [hw, hpc, update_apply, update_apply]
    grind
  · have hold := h.reader t' f'
    rw [hr, hpc, LoadPc.update_view _ (hs.trans hns.symm)]
    exact hold
  · have hold := h.excl f' t'
    rw [hw, hr, update_apply]
    grind

/-- A thread without a latch takes a read latch. -/
theorem Latched.share (hf : s.writer f = none) (hno : (s.pc t).owned = none)
    (hns : (s.pc t).shared = none) (ho : pc.owned = none) (hs : pc.shared = some f)
    (hw : s'.writer = s.writer) (hr : s'.readers = update s.readers f (insert t (s.readers f)))
    (hpc : s'.pc = update s.pc t pc) : s'.Latched := by
  refine ⟨fun t' f' => ?_, fun t' f' => ?_, fun f' t' => ?_⟩
  · rw [hw, hpc, LoadPc.update_view _ (ho.trans hno.symm)]
    exact h.writer t' f'
  · have hold := h.reader t' f'
    rw [hr, hpc, update_apply, update_apply]
    grind
  · have hold := h.excl f' t'
    rw [hw, hr, update_apply]
    grind

/-- The owner of a frame gives its latch up, or keeps a read latch. -/
theorem Latched.disown (hno : (s.pc t).owned = some f) (hns : (s.pc t).shared = none)
    (ho : pc.owned = none) (hs : pc.shared = none ∧ s'.readers = s.readers ∨
      pc.shared = some f ∧ s'.readers = update s.readers f (insert t (s.readers f)))
    (hw : s'.writer = update s.writer f none) (hpc : s'.pc = update s.pc t pc) : s'.Latched := by
  have hwf := (h.writer t f).2 hno
  have hempty := h.excl f t hwf
  refine ⟨fun t' f' => ?_, fun t' f' => ?_, fun f' t' => ?_⟩
  · have hold := h.writer t' f'
    rw [hw, hpc, update_apply, update_apply]
    grind
  · have hold := h.reader t' f'
    obtain ⟨hs, hr⟩ | ⟨hs, hr⟩ := hs
    · rw [hr, hpc, LoadPc.update_view _ (hs.trans hns.symm)]
      exact hold
    · rw [hr, hpc, update_apply, update_apply]
      grind
  · have hold := h.excl f' t'
    obtain ⟨hs, hr⟩ | ⟨hs, hr⟩ := hs
    · rw [hw, hr, update_apply]
      grind
    · rw [hw, hr, update_apply, update_apply]
      grind

/-- A reader gives its latch up. -/
theorem Latched.unshare (hno : (s.pc t).owned = none) (hns : (s.pc t).shared = some f)
    (ho : pc.owned = none) (hs : pc.shared = none) (hw : s'.writer = s.writer)
    (hr : s'.readers = update s.readers f ((s.readers f).erase t))
    (hpc : s'.pc = update s.pc t pc) : s'.Latched := by
  refine ⟨fun t' f' => ?_, fun t' f' => ?_, fun f' t' => ?_⟩
  · rw [hw, hpc, LoadPc.update_view _ (ho.trans hno.symm)]
    exact h.writer t' f'
  · have hold := h.reader t' f'
    rw [hr, hpc, update_apply, update_apply]
    grind
  · have hold := h.excl f' t'
    rw [hw, hr, update_apply]
    grind

end

/-- A thread becomes the loader of a page that has none. -/
theorem Registered.register (h : s.Registered) (hp : s.loading p = none)
    (hno : (s.pc t).loads = none) (hl : pc.loads = some p)
    (hld : s'.loading = update s.loading p (some t))
    (hpc : s'.pc = update s.pc t pc) : s'.Registered := by
  intro t' p'
  have hold := h t' p'
  rw [hld, hpc, update_apply, update_apply]
  grind

/-- The loader of a page is done. -/
theorem Registered.finish (h : s.Registered) {p : PageNo} (hno : (s.pc t).loads = some p)
    (hl : pc.loads = none) (hld : s'.loading = update s.loading p none)
    (hpc : s'.pc = update s.pc t pc) : s'.Registered := by
  intro t' p'
  have hold := h t' p'
  have hp := (h t p).2 hno
  rw [hld, hpc, update_apply, update_apply]
  grind

/-! ## Where the pages are -/

/-- Where the last content of every page is, and who has which frame. -/
structure Placed (s : LoadState α) : Prop where
  absent : ∀ t p, (s.pc t).misses = some p → s.pageMap p = none
  held : ∀ t p f, (s.pc t).holds = some (p, f) → s.pageMap p = some f
  mapped : ∀ p f, s.pageMap p = some f → (s.frames f).pageNo = p ∧ f ∈ s.lru ∧
    ∀ t, (s.pc t).takes ≠ some f
  resident : ∀ f ∈ s.lru, (∃ t, (s.pc t).takes = some f) ∨ s.pageMap (s.frames f).pageNo = some f
  free : ∀ f ∈ s.free, f ∉ s.lru
  nodup : s.free.Nodup
  taken : ∀ t f, (s.pc t).takes = some f → f ∈ s.lru
  leaving : ∀ t q f, (s.pc t).leaves = some (q, f) → s.pageMap q = none ∧
    (s.frames f).data = s.last q ∧ ∀ t' f', (s.pc t').leaves = some (q, f') → t' = t
  arriving : ∀ t p f, (s.pc t).fills = some (p, f) → (s.frames f).data = s.last p ∧
    s.disk p = s.last p ∧ ∀ t' f', (s.pc t').leaves ≠ some (p, f')
  current : ∀ p f, s.pageMap p = some f → (s.frames f).data = s.last p ∧
    ((s.frames f).dirty = false → s.disk p = s.last p)
  away : ∀ p, s.pageMap p = none → (∀ t f, (s.pc t).leaves ≠ some (p, f)) → s.disk p = s.last p

/-- Steps that move no page: a thread looks a page up, registers, or gives it back. -/
theorem Placed.goto (h : s.Placed) (pc : LoadPc) (hm : ∀ p, pc.misses = some p → s.pageMap p = none)
    (hh : ∀ p f, pc.holds = some (p, f) → s.pageMap p = some f) (htk : pc.takes = (s.pc t).takes)
    (hlv : pc.leaves = (s.pc t).leaves) (hfl : pc.fills = (s.pc t).fills)
    (hframes : s'.frames = s.frames) (hmap : s'.pageMap = s.pageMap) (hlru : s'.lru = s.lru)
    (hfree : s'.free = s.free) (hdisk : s'.disk = s.disk) (hlast : s'.last = s.last)
    (hpc : s'.pc = update s.pc t pc) : s'.Placed := by
  have hvt : ∀ t', (s'.pc t').takes = (s.pc t').takes := hpc ▸ LoadPc.update_view _ htk
  have hvl : ∀ t', (s'.pc t').leaves = (s.pc t').leaves := hpc ▸ LoadPc.update_view _ hlv
  have hvf : ∀ t', (s'.pc t').fills = (s.pc t').fills := hpc ▸ LoadPc.update_view _ hfl
  constructor
  case absent =>
    intro t' p
    rw [hpc, hmap, update_apply]
    split_ifs with ht
    · exact hm p
    · exact h.absent t' p
  case held =>
    intro t' p f
    rw [hpc, hmap, update_apply]
    split_ifs with ht
    · exact hh p f
    · exact h.held t' p f
  case mapped =>
    simp only [hmap, hframes, hlru, hvt]
    exact h.mapped
  case resident =>
    simp only [hmap, hframes, hlru, hvt]
    exact h.resident
  case free =>
    simp only [hlru, hfree]
    exact h.free
  case nodup => exact hfree ▸ h.nodup
  case taken =>
    simp only [hlru, hvt]
    exact h.taken
  case leaving =>
    simp only [hmap, hframes, hlast, hvl]
    exact h.leaving
  case arriving =>
    simp only [hframes, hdisk, hlast, hvl, hvf]
    exact h.arriving
  case current =>
    simp only [hmap, hframes, hdisk, hlast]
    exact h.current
  case away =>
    simp only [hmap, hdisk, hlast, hvl]
    exact h.away

theorem Latched.takes_unique (h : s.Latched) {t' f : Nat} (ht : (s.pc t).takes = some f)
    (ht' : (s.pc t').takes = some f) : t' = t := by
  have hw := (h.writer t f).2 (LoadPc.owned_of_takes ht)
  have hw' := (h.writer t' f).2 (LoadPc.owned_of_takes ht')
  exact some.inj (hw'.symm.trans hw)

variable {w : Bool}

section

variable (h : s.Placed)
include h

/-- A frame from the free list. -/
theorem Placed.claim_free {rest : List Nat} (hpc : s.pc t = .loader p w)
    (hfree : s.free = f :: rest) :
    ({ s with
      free := rest
      lru := f :: s.lru
      writer := update s.writer f (some t) }.goto t (.claimed p w f none)).Placed := by
  have hlru := h.free f (hfree ▸ mem_cons_self)
  have hnd := h.nodup
  rw [hfree] at hnd
  have hleaves : ∀ t', (update s.pc t (.claimed p w f none) t').leaves =
      (s.pc t').leaves := LoadPc.update_view _ (by rw [hpc]; rfl)
  have hfills : ∀ t', (update s.pc t (.claimed p w f none) t').fills =
      (s.pc t').fills := LoadPc.update_view _ (by rw [hpc]; rfl)
  constructor <;> simp only [LoadState.goto]
  case absent =>
    intro t' p' hm
    obtain ⟨rfl, hm'⟩ | ⟨-, hm⟩ := LoadPc.view_update hm
    · cases hm'
      exact h.absent t' p (by rw [hpc]; rfl)
    · exact h.absent t' p' hm
  case held =>
    intro t' p' f' hh
    obtain ⟨-, hh⟩ | ⟨-, hh⟩ := LoadPc.view_update hh
    · cases hh
    · exact h.held t' p' f' hh
  case mapped =>
    intro p' f' hm
    obtain ⟨h1, h2, h3⟩ := h.mapped p' f' hm
    refine ⟨h1, mem_cons_of_mem _ h2, fun t' ht' => ?_⟩
    obtain ⟨-, ht'⟩ | ⟨-, ht'⟩ := LoadPc.view_update ht'
    · cases ht'
      exact hlru h2
    · exact h3 t' ht'
  case resident =>
    intro f' hf'
    obtain rfl | hf' := mem_cons.1 hf'
    · exact .inl ⟨t, by rw [update_self]; rfl⟩
    · obtain ⟨t', ht'⟩ | hm := h.resident f' hf'
      · have hne : t' ≠ t := by
          rintro rfl
          rw [hpc] at ht'
          cases ht'
        exact .inl ⟨t', by rw [update_of_ne hne]; exact ht'⟩
      · exact .inr hm
  case free =>
    intro f' hf' hl
    obtain rfl | hl := mem_cons.1 hl
    · exact (nodup_cons.1 hnd).1 hf'
    · exact h.free f' (hfree ▸ mem_cons_of_mem _ hf') hl
  case nodup => exact (nodup_cons.1 hnd).2
  case taken =>
    intro t' f' ht'
    obtain ⟨-, ht'⟩ | ⟨-, ht'⟩ := LoadPc.view_update ht'
    · cases ht'
      exact mem_cons_self
    · exact mem_cons_of_mem _ (h.taken t' f' ht')
  case leaving =>
    simp only [hleaves]
    exact h.leaving
  case arriving =>
    simp only [hleaves, hfills]
    exact h.arriving
  case current => exact h.current
  case away =>
    simp only [hleaves]
    exact h.away

/-- The eviction of an unlatched frame: its page is unmapped, and has still to be written back when
    it is dirty. -/
theorem Placed.claim_victim (hl : s.Latched) (hpc : s.pc t = .loader p w) (hfree : s.free = [])
    (hf : f ∈ s.lru) (hun : s.unlatched f = true) :
    ({ s with
      lru := f :: s.lru.erase f
      pageMap := update s.pageMap (s.frames f).pageNo none
      writer := update s.writer f (some t) }.goto t (.claimed p w f
        (if (s.frames f).dirty then some (s.frames f).pageNo else none))).Placed := by
  have htakes : ∀ t', (s.pc t').takes ≠ some f :=
    fun t' ht' => (hl.nobody hun t').1 (LoadPc.owned_of_takes ht')
  have hmap : s.pageMap (s.frames f).pageNo = some f :=
    (h.resident f hf).resolve_left fun ⟨t', ht'⟩ => htakes t' ht'
  obtain ⟨v, hv⟩ : ∃ v, v = if (s.frames f).dirty then some (s.frames f).pageNo else none :=
    ⟨_, rfl⟩
  have hlru : ∀ f' ∈ s.lru, f' ∈ f :: s.lru.erase f := by
    intro f' hf'
    by_cases he : f' = f
    · exact he ▸ mem_cons_self
    · exact mem_cons_of_mem _ ((mem_erase_of_ne he).2 hf')
  have hkeep : ∀ p', s.pageMap p' = none →
      update s.pageMap (s.frames f).pageNo none p' = none := by
    intro p' hp'
    rw [update_apply]
    split_ifs
    · rfl
    · exact hp'
  have hold : ∀ p' f', update s.pageMap (s.frames f).pageNo none p' = some f' →
      p' ≠ (s.frames f).pageNo ∧ s.pageMap p' = some f' := by
    intro p' f' hm
    rw [update_apply] at hm
    split_ifs at hm with he
    exact ⟨he, hm⟩
  -- what the claim shows of a page that has still to be written back
  have hleft : ∀ q f', (LoadPc.claimed p w f v).leaves = some (q, f') →
      q = (s.frames f).pageNo ∧ f' = f ∧ (s.frames f).dirty = true := by
    intro q f' hq
    cases hd : (s.frames f).dirty with
    | false =>
      rw [hd, if_neg (by decide)] at hv
      rw [hv] at hq
      cases hq
    | true =>
      rw [hd, if_pos rfl] at hv
      rw [hv] at hq
      cases hq
      exact ⟨rfl, rfl, rfl⟩
  rw [← hv]
  constructor <;> simp only [LoadState.goto]
  case absent =>
    intro t' p' hm
    obtain ⟨rfl, hm'⟩ | ⟨-, hm⟩ := LoadPc.view_update hm
    · cases hm'
      exact hkeep p (h.absent t' p (by rw [hpc]; rfl))
    · exact hkeep p' (h.absent t' p' hm)
  case held =>
    intro t' p' f' hh
    obtain ⟨-, hh⟩ | ⟨-, hh⟩ := LoadPc.view_update hh
    · cases hh
    · have hp' := h.held t' p' f' hh
      rw [update_of_ne]
      · exact hp'
      · rintro rfl
        obtain rfl := some.inj (hp'.symm.trans hmap)
        obtain ho | hs := LoadPc.latched_of_holds hh
        · exact (hl.nobody hun t').1 ho
        · exact (hl.nobody hun t').2 hs
  case mapped =>
    intro p' f' hm
    obtain ⟨hp', hm⟩ := hold p' f' hm
    obtain ⟨h1, h2, h3⟩ := h.mapped p' f' hm
    refine ⟨h1, hlru f' h2, fun t' ht' => ?_⟩
    obtain ⟨-, ht'⟩ | ⟨-, ht'⟩ := LoadPc.view_update ht'
    · cases ht'
      exact hp' h1.symm
    · exact h3 t' ht'
  case resident =>
    intro f' hf'
    by_cases he : f' = f
    · subst he
      exact .inl ⟨t, by rw [update_self]; rfl⟩
    have hf' : f' ∈ s.lru := mem_of_mem_erase ((mem_cons.1 hf').resolve_left he)
    obtain ⟨t', ht'⟩ | hm := h.resident f' hf'
    · have hne : t' ≠ t := by
        rintro rfl
        rw [hpc] at ht'
        cases ht'
      exact .inl ⟨t', by rw [update_of_ne hne]; exact ht'⟩
    · refine .inr ?_
      rw [update_of_ne]
      · exact hm
      · intro hq
        rw [hq, hmap] at hm
        exact he (some.inj hm).symm
  case free =>
    rw [hfree]
    nofun
  case nodup => exact h.nodup
  case taken =>
    intro t' f' ht'
    obtain ⟨-, hself⟩ | ⟨-, hold⟩ := LoadPc.view_update ht'
    · cases hself
      exact mem_cons_self
    · exact hlru f' (h.taken t' f' hold)
  case leaving =>
    intro t' q f' hq
    obtain ⟨rfl, hself⟩ | ⟨ht, hq⟩ := LoadPc.view_update hq
    · obtain ⟨rfl, rfl, -⟩ := hleft q f' hself
      refine ⟨update_self .., (h.current _ _ hmap).1, fun t'' f'' h'' => ?_⟩
      obtain ⟨rfl, -⟩ | ⟨-, h''⟩ := LoadPc.view_update h''
      · rfl
      · have := (h.leaving t'' _ f'' h'').1
        rw [hmap] at this
        cases this
    · obtain ⟨h1, h2, h3⟩ := h.leaving t' q f' hq
      refine ⟨hkeep q h1, h2, fun t'' f'' h'' => ?_⟩
      obtain ⟨-, h''⟩ | ⟨-, h''⟩ := LoadPc.view_update h''
      · obtain ⟨rfl, -, -⟩ := hleft q f'' h''
        rw [hmap] at h1
        cases h1
      · exact h3 t'' f'' h''
  case arriving =>
    intro t' p' f' hfl
    obtain ⟨-, hfl⟩ | ⟨-, hfl⟩ := LoadPc.view_update hfl
    · cases hfl
    · obtain ⟨h1, h2, h3⟩ := h.arriving t' p' f' hfl
      refine ⟨h1, h2, fun t'' f'' h'' => ?_⟩
      obtain ⟨-, h''⟩ | ⟨-, h''⟩ := LoadPc.view_update h''
      · obtain ⟨rfl, -, -⟩ := hleft p' f'' h''
        have := h.absent t' _ (LoadPc.takes_of_fills hfl).2
        rw [hmap] at this
        cases this
      · exact h3 t'' f'' h''
  case current =>
    intro p' f' hm
    exact h.current p' f' (hold p' f' hm).2
  case away =>
    intro p' hp' hno
    by_cases he : p' = (s.frames f).pageNo
    · subst he
      refine (h.current _ f hmap).2 ?_
      cases hd : (s.frames f).dirty with
      | false => rfl
      | true =>
        rw [hd, if_pos rfl] at hv
        have hnot := hno t f
        rw [update_self, hv] at hnot
        exact absurd rfl hnot
    · rw [update_of_ne he] at hp'
      refine h.away p' hp' fun t' f' hq => ?_
      have ht : t' ≠ t := by
        rintro rfl
        rw [hpc] at hq
        cases hq
      have hnot := hno t' f'
      rw [update_of_ne ht] at hnot
      exact hnot hq

/-- The write-back: the file has the last content again. -/
theorem Placed.writeBack {p q : PageNo} (hpc : s.pc t = .claimed p w f (some q)) :
    (s.writeBack t p w f q).Placed := by
  have hq : (s.pc t).leaves = some (q, f) := by rw [hpc]; rfl
  obtain ⟨hmapq, hdata, huniq⟩ := h.leaving t q f hq
  have htf : (s.pc t).takes = some f := LoadPc.takes_of_leaves hq
  have hview : ∀ {β : Type} (g : LoadPc → β), g (.claimed p w f none) = g (s.pc t) →
      ∀ t', g (update s.pc t (.claimed p w f none) t') = g (s.pc t') :=
    fun g => LoadPc.update_view g
  have hmisses := hview LoadPc.misses (by rw [hpc]; rfl)
  have hholds := hview LoadPc.holds (by rw [hpc]; rfl)
  have htakes := hview LoadPc.takes (by rw [hpc]; rfl)
  have hfills := hview LoadPc.fills (by rw [hpc]; rfl)
  have hleaves : ∀ t' q' f', (update s.pc t (.claimed p w f none) t').leaves =
      some (q', f') → t' ≠ t ∧ (s.pc t').leaves = some (q', f') := by
    intro t' q' f' hl
    obtain ⟨-, hl⟩ | ⟨ht, hl⟩ := LoadPc.view_update hl
    · cases hl
    · exact ⟨ht, hl⟩
  -- only the dirty mark of the claimed frame has changed
  have hframe : ∀ f', (update s.frames f { s.frames f with dirty := false } f').pageNo =
        (s.frames f').pageNo ∧
      (update s.frames f { s.frames f with dirty := false } f').data =
        (s.frames f').data := by
    intro f'
    rw [update_apply]
    split_ifs with he
    · subst he
      exact ⟨rfl, rfl⟩
    · exact ⟨rfl, rfl⟩
  constructor <;> simp only [LoadState.writeBack, LoadState.goto, hmisses, hholds, htakes, hfills]
  case absent => exact h.absent
  case held => exact h.held
  case mapped =>
    intro p' f' hm
    rw [(hframe f').1]
    exact h.mapped p' f' hm
  case resident =>
    intro f' hf'
    rw [(hframe f').1]
    exact h.resident f' hf'
  case free => exact h.free
  case nodup => exact h.nodup
  case taken => exact h.taken
  case leaving =>
    intro t' q' f' hl
    obtain ⟨-, hl⟩ := hleaves t' q' f' hl
    rw [(hframe f').2]
    obtain ⟨h1, h2, h3⟩ := h.leaving t' q' f' hl
    exact ⟨h1, h2, fun t'' f'' h'' => h3 t'' f'' (hleaves t'' q' f'' h'').2⟩
  case arriving =>
    intro t' p' f' hfl
    obtain ⟨h1, h2, h3⟩ := h.arriving t' p' f' hfl
    have hne : p' ≠ q := by
      rintro rfl
      exact h3 t f hq
    rw [(hframe f').2, update_of_ne hne]
    exact ⟨h1, h2, fun t'' f'' h'' => h3 t'' f'' (hleaves t'' p' f'' h'').2⟩
  case current =>
    intro p' f' hm
    obtain ⟨h1, h2⟩ := h.current p' f' hm
    have hne : p' ≠ q := by
      rintro rfl
      rw [hmapq] at hm
      cases hm
    have hf : f' ≠ f := by
      rintro rfl
      exact (h.mapped p' f' hm).2.2 t htf
    rw [update_of_ne hne, update_of_ne hf]
    exact ⟨h1, h2⟩
  case away =>
    intro p' hp' hno
    by_cases he : p' = q
    · subst he
      rw [update_self]
      exact hdata
    · rw [update_of_ne he]
      refine h.away p' hp' fun t' f' hl => ?_
      have ht : t' ≠ t := by
        rintro rfl
        exact he (Prod.mk.inj (some.inj (hl.symm.trans hq))).1
      have hnot := hno t' f'
      rw [update_of_ne ht] at hnot
      exact hnot hl

/-- The read from disk, when nobody has the page still to write back. -/
theorem Placed.readPage (hl : s.Latched) (hpc : s.pc t = .claimed p w f none)
    (hset : ∀ t' f', (s.pc t').leaves ≠ some (p, f')) : (s.readPage t p w f).Placed := by
  have htf : (s.pc t).takes = some f := by rw [hpc]; rfl
  have hdisk : s.disk p = s.last p := h.away p (h.absent t p (by rw [hpc]; rfl)) hset
  have hview : ∀ {β : Type} (g : LoadPc → β), g (.filled p w f) = g (s.pc t) →
      ∀ t', g (update s.pc t (.filled p w f) t') = g (s.pc t') :=
    fun g => LoadPc.update_view g
  have hmisses := hview LoadPc.misses (by rw [hpc]; rfl)
  have hholds := hview LoadPc.holds (by rw [hpc]; rfl)
  have htakes := hview LoadPc.takes (by rw [hpc]; rfl)
  have hleaves := hview LoadPc.leaves (by rw [hpc]; rfl)
  -- only the bytes of the claimed frame have changed
  have hpageNo : ∀ f', (update s.frames f { s.frames f with data := s.disk p }
      f').pageNo = (s.frames f').pageNo := by
    intro f'
    rw [update_apply]
    split_ifs with he
    · subst he
      rfl
    · rfl
  constructor <;> simp only [LoadState.readPage, LoadState.goto, hmisses, hholds, htakes, hleaves,
    hpageNo]
  case absent => exact h.absent
  case held => exact h.held
  case mapped => exact h.mapped
  case resident => exact h.resident
  case free => exact h.free
  case nodup => exact h.nodup
  case taken => exact h.taken
  case leaving =>
    intro t' q f' hq
    have hf : f' ≠ f := by
      rintro rfl
      obtain rfl := hl.takes_unique htf (LoadPc.takes_of_leaves hq)
      rw [hpc] at hq
      cases hq
    rw [update_of_ne hf]
    exact h.leaving t' q f' hq
  case arriving =>
    intro t' p' f' hfl
    obtain ⟨rfl, hself⟩ | ⟨ht, hold⟩ := LoadPc.view_update hfl
    · cases hself
      rw [update_self]
      exact ⟨hdisk, hdisk, hset⟩
    · have hf : f' ≠ f := by
        rintro rfl
        exact ht (hl.takes_unique htf (LoadPc.takes_of_fills hold).1)
      rw [update_of_ne hf]
      exact h.arriving t' p' f' hold
  case current =>
    intro p' f' hm
    have hf : f' ≠ f := by
      rintro rfl
      exact (h.mapped p' f' hm).2.2 t htf
    rw [update_of_ne hf]
    exact h.current p' f' hm
  case away => exact h.away

/-- The installation: the page is mapped with its last content. -/
theorem Placed.install (hl : s.Latched) (hr : s.Registered) (hpc : s.pc t = .filled p w f) :
    (s.install t p w f).Placed := by
  have htf : (s.pc t).takes = some f := by rw [hpc]; rfl
  have hmapp : s.pageMap p = none := h.absent t p (by rw [hpc]; rfl)
  obtain ⟨hdata, hdisk, hnone⟩ := h.arriving t p f (by rw [hpc]; rfl)
  have hlru := h.taken t f htf
  have hleaves : ∀ t', (update s.pc t (.holding p w f) t').leaves = (s.pc t').leaves :=
    LoadPc.update_view _ (by rw [hpc]; rfl)
  have hunmapped : ∀ p' f', s.pageMap p' = some f' → p' ≠ p ∧ f' ≠ f := by
    intro p' f' hm
    constructor
    · rintro rfl
      rw [hmapp] at hm
      cases hm
    · rintro rfl
      exact (h.mapped p' f' hm).2.2 t htf
  have hframe : ∀ f', (update s.frames f { s.frames f with pageNo := p } f').data =
        (s.frames f').data ∧
      (update s.frames f { s.frames f with pageNo := p } f').dirty =
        (s.frames f').dirty := by
    intro f'
    rw [update_apply]
    split_ifs with he
    · subst he
      exact ⟨rfl, rfl⟩
    · exact ⟨rfl, rfl⟩
  constructor <;> simp only [LoadState.install, LoadState.goto, hleaves, hmapp, none_or]
  case absent =>
    intro t' p' hm
    obtain ⟨-, hself⟩ | ⟨ht, hold⟩ := LoadPc.view_update hm
    · cases hself
    · have hp : p' ≠ p := by
        rintro rfl
        have h1 := (hr t' p').2 (LoadPc.loads_of_misses hold)
        have h2 := (hr t p').2 (by rw [hpc]; rfl)
        exact ht (some.inj (h1.symm.trans h2))
      rw [update_of_ne hp]
      exact h.absent t' p' hold
  case held =>
    intro t' p' f' hh
    obtain ⟨-, hh⟩ | ⟨-, hh⟩ := LoadPc.view_update hh
    · cases hh
      exact update_self ..
    · have hm := h.held t' p' f' hh
      rw [update_of_ne (hunmapped p' f' hm).1]
      exact hm
  case mapped =>
    intro p' f' hm
    by_cases hp : p' = p
    · subst hp
      rw [update_self] at hm
      cases hm
      refine ⟨by rw [update_self], hlru, fun t' ht' => ?_⟩
      obtain ⟨-, hself⟩ | ⟨ht, hold⟩ := LoadPc.view_update ht'
      · cases hself
      · exact ht (hl.takes_unique htf hold)
    · rw [update_of_ne hp] at hm
      obtain ⟨h1, h2, h3⟩ := h.mapped p' f' hm
      rw [update_of_ne (hunmapped p' f' hm).2]
      refine ⟨h1, h2, fun t' ht' => ?_⟩
      obtain ⟨-, hself⟩ | ⟨-, hold⟩ := LoadPc.view_update ht'
      · cases hself
      · exact h3 t' hold
  case resident =>
    intro f' hf'
    by_cases he : f' = f
    · subst he
      refine .inr ?_
      rw [update_self, update_self]
    · rw [update_of_ne he]
      obtain ⟨t', ht'⟩ | hm := h.resident f' hf'
      · have ht : t' ≠ t := by
          rintro rfl
          exact he (some.inj (ht'.symm.trans htf))
        exact .inl ⟨t', by rw [update_of_ne ht]; exact ht'⟩
      · refine .inr ?_
        rw [update_of_ne (hunmapped _ f' hm).1]
        exact hm
  case free => exact h.free
  case nodup => exact h.nodup
  case taken =>
    intro t' f' ht'
    obtain ⟨-, hself⟩ | ⟨-, hold⟩ := LoadPc.view_update ht'
    · cases hself
    · exact h.taken t' f' hold
  case leaving =>
    intro t' q f' hq
    obtain ⟨h1, h2, h3⟩ := h.leaving t' q f' hq
    have hp : q ≠ p := by
      rintro rfl
      exact hnone t' f' hq
    rw [update_of_ne hp, (hframe f').1]
    exact ⟨h1, h2, h3⟩
  case arriving =>
    intro t' p' f' hfl
    rw [(hframe f').1]
    obtain ⟨-, hself⟩ | ⟨-, hold⟩ := LoadPc.view_update hfl
    · cases hself
    · exact h.arriving t' p' f' hold
  case current =>
    intro p' f' hm
    rw [(hframe f').1, (hframe f').2]
    by_cases hp : p' = p
    · subst hp
      rw [update_self] at hm
      cases hm
      exact ⟨hdata, fun _ => hdisk⟩
    · rw [update_of_ne hp] at hm
      exact h.current p' f' hm
  case away =>
    intro p' hp' hno
    have hp : p' ≠ p := by
      rintro rfl
      rw [update_self] at hp'
      cases hp'
    rw [update_of_ne hp] at hp'
    exact h.away p' hp' hno

/-- A write to a page that the thread has. -/
theorem Placed.modify (hpc : s.pc t = .holding p w f) (a : α) : (s.modify p f a).Placed := by
  have hmap : s.pageMap p = some f := h.held t p f (by rw [hpc]; rfl)
  obtain ⟨hno, -, htakes⟩ := h.mapped p f hmap
  have hpageNo : ∀ f', (update s.frames f { s.frames f with data := a, dirty := true }
      f').pageNo = (s.frames f').pageNo := by
    intro f'
    rw [update_apply]
    split_ifs with he
    · subst he
      rfl
    · rfl
  constructor <;> simp only [LoadState.modify, hpageNo]
  case absent => exact h.absent
  case held => exact h.held
  case mapped => exact h.mapped
  case resident => exact h.resident
  case free => exact h.free
  case nodup => exact h.nodup
  case taken => exact h.taken
  case leaving =>
    intro t' q f' hq
    obtain ⟨h1, h2, h3⟩ := h.leaving t' q f' hq
    have hf : f' ≠ f := by
      rintro rfl
      exact htakes t' (LoadPc.takes_of_leaves hq)
    have hp : q ≠ p := by
      rintro rfl
      rw [hmap] at h1
      cases h1
    rw [update_of_ne hf, update_of_ne hp]
    exact ⟨h1, h2, h3⟩
  case arriving =>
    intro t' p' f' hfl
    have hf : f' ≠ f := by
      rintro rfl
      exact htakes t' (LoadPc.takes_of_fills hfl).1
    have hp : p' ≠ p := by
      rintro rfl
      have habs := h.absent t' p' (LoadPc.takes_of_fills hfl).2
      rw [hmap] at habs
      cases habs
    rw [update_of_ne hf, update_of_ne hp]
    exact h.arriving t' p' f' hfl
  case current =>
    intro p' f' hm
    by_cases hp : p' = p
    · subst hp
      obtain rfl := some.inj (hm.symm.trans hmap)
      rw [update_self, update_self]
      exact ⟨rfl, nofun⟩
    · have hf : f' ≠ f := by
        rintro rfl
        exact hp ((h.mapped p' f' hm).1.symm.trans hno)
      rw [update_of_ne hp, update_of_ne hf]
      exact h.current p' f' hm
  case away =>
    intro p' hp' hnone
    have hp : p' ≠ p := by
      rintro rfl
      rw [hmap] at hp'
      cases hp'
    rw [update_of_ne hp]
    exact h.away p' hp' hnone

end

/-! ## The steps -/

/-- What every run without a read of an unsettled page keeps. -/
structure Inv (s : LoadState α) : Prop where
  latched : s.Latched
  registered : s.Registered
  placed : s.Placed

theorem start_inv (n : Nat) (blank : α) (disk : PageNo → α) : (start n blank disk).Inv := by
  refine ⟨⟨fun t f => ?_, fun t f => ?_, nofun⟩, fun t p => ?_, ?_⟩
  · exact iff_of_false nofun nofun
  · exact iff_of_false (Finset.notMem_empty t) nofun
  · exact iff_of_false nofun nofun
  · exact ⟨nofun, nofun, nofun, nofun, fun f _ => not_mem_nil, nodup_range, nofun, nofun,
      nofun, nofun, fun p _ _ => rfl⟩

variable {s1 : LoadState α}

section

variable (h : s.Inv)
include h

/-- A thread without a latch that is given a cached page; a loader is then done. -/
theorem Inv.latch (hmap : s.pageMap p = some f) (ho : (s.pc t).owned = none)
    (hs : (s.pc t).shared = none) (htk : (s.pc t).takes = none) (hlv : (s.pc t).leaves = none)
    (hfl : (s.pc t).fills = none) (h1 : s.latch t p w f = some s1) (hframes : s'.frames = s1.frames)
    (hmap' : s'.pageMap = s1.pageMap) (hlru : s'.lru = s1.lru) (hfree : s'.free = s1.free)
    (hdisk : s'.disk = s1.disk) (hlast : s'.last = s1.last) (hw : s'.writer = s1.writer)
    (hr : s'.readers = s1.readers) (hpc : s'.pc = s1.pc)
    (hld : (s.pc t).loads = none ∧ s'.loading = s.loading ∨
      (s.pc t).loads = some p ∧ s'.loading = update s.loading p none) : s'.Inv := by
  have hreg : ∀ pc : LoadPc, pc.loads = none → s'.pc = update s.pc t pc →
      s'.Registered := by
    intro pc hl hpc'
    obtain ⟨hno, hload⟩ | ⟨hno, hload⟩ := hld
    · exact h.registered.goto pc (hl.trans hno.symm) hload hpc'
    · exact h.registered.finish hno hl hload hpc'
  have hplaced : ∀ pc : LoadPc, pc.misses = none → pc.holds = some (p, f) → pc.takes = none →
      pc.leaves = none → pc.fills = none → s1.frames = s.frames → s1.pageMap = s.pageMap →
      s1.lru = s.lru → s1.free = s.free → s1.disk = s.disk → s1.last = s.last →
      s'.pc = update s.pc t pc → s'.Placed := by
    intro pc hm hh htk' hlv' hfl' e1 e2 e3 e4 e5 e6 hpc'
    refine h.placed.goto pc (fun p' hp' => ?_) (fun p' f' hp' => ?_) (htk'.trans htk.symm)
      (hlv'.trans hlv.symm) (hfl'.trans hfl.symm) (hframes.trans e1) (hmap'.trans e2)
      (hlru.trans e3) (hfree.trans e4) (hdisk.trans e5) (hlast.trans e6) hpc'
    · rw [hm] at hp'
      cases hp'
    · rw [hh] at hp'
      cases hp'
      exact hmap
  unfold LoadState.latch at h1
  split_ifs at h1 with hw1 hun hfr
  · cases h1
    subst hw1
    exact ⟨h.latched.acquire hun ho hs rfl rfl hw hr hpc, hreg _ rfl hpc,
      hplaced _ rfl rfl rfl rfl rfl rfl rfl rfl rfl rfl rfl hpc⟩
  · cases h1
    obtain rfl : w = false := by simpa using hw1
    exact ⟨h.latched.share hfr ho hs rfl rfl hw hr hpc, hreg _ rfl hpc,
      hplaced _ rfl rfl rfl rfl rfl rfl rfl rfl rfl rfl rfl hpc⟩

/-- A step of a thread that touches nothing but its place and the loading set. -/
theorem Inv.goto (pc : LoadPc) (ho : pc.owned = (s.pc t).owned) (hs : pc.shared = (s.pc t).shared)
    (hm : ∀ p, pc.misses = some p → s.pageMap p = none) (hh : pc.holds = none)
    (htk : pc.takes = (s.pc t).takes) (hlv : pc.leaves = (s.pc t).leaves)
    (hfl : pc.fills = (s.pc t).fills) {loading : PageNo → Option Nat}
    (hreg : ({ s with loading := loading }.goto t pc).Registered) :
    ({ s with loading := loading }.goto t pc).Inv := by
  refine ⟨h.latched.goto pc ho hs rfl rfl rfl, hreg, h.placed.goto pc hm ?_ htk hlv hfl rfl rfl rfl
    rfl rfl rfl rfl⟩
  intro p f hp
  rw [hh] at hp
  cases hp

theorem Inv.lookup (hpc : s.pc t = .idle ∨ s.pc t = .waiting p w)
    (h1 : s.tryLatch t p w (.missed p w) = some s') : s'.Inv := by
  have hviews : (s.pc t).owned = none ∧ (s.pc t).shared = none ∧ (s.pc t).takes = none ∧
      (s.pc t).leaves = none ∧ (s.pc t).fills = none ∧ (s.pc t).loads = none := by
    obtain hpc | hpc := hpc
    · rw [hpc]
      exact ⟨rfl, rfl, rfl, rfl, rfl, rfl⟩
    · rw [hpc]
      exact ⟨rfl, rfl, rfl, rfl, rfl, rfl⟩
  obtain ⟨ho, hs, htk, hlv, hfl, hld⟩ := hviews
  unfold tryLatch at h1
  split at h1
  · rename_i f hmap
    have hload : s'.loading = s.loading := by
      unfold LoadState.latch at h1
      split_ifs at h1
      · cases h1
        rfl
      · cases h1
        rfl
    exact h.latch hmap ho hs htk hlv hfl h1 rfl rfl rfl rfl rfl rfl rfl rfl rfl (.inl ⟨hld, hload⟩)
  · cases h1
    exact h.goto (.missed p w) ho.symm hs.symm nofun rfl htk.symm hlv.symm hfl.symm
      (h.registered.goto (.missed p w) hld.symm rfl rfl)

theorem Inv.relookup (hpc : s.pc t = .registered p w)
    (h1 : s.tryLatch t p w (.loader p w) = some s1) :
    (if s.pageMap p = none then s1 else s1.finishPageLoad p).Inv := by
  have ho : (s.pc t).owned = none := by rw [hpc]; rfl
  have hs : (s.pc t).shared = none := by rw [hpc]; rfl
  have htk : (s.pc t).takes = none := by rw [hpc]; rfl
  have hlv : (s.pc t).leaves = none := by rw [hpc]; rfl
  have hfl : (s.pc t).fills = none := by rw [hpc]; rfl
  have hld : (s.pc t).loads = some p := by rw [hpc]; rfl
  unfold tryLatch at h1
  split at h1
  · rename_i f hmap
    rw [if_neg (by rw [hmap]; nofun)]
    have hload : s1.loading = s.loading := by
      unfold LoadState.latch at h1
      split_ifs at h1
      · cases h1
        rfl
      · cases h1
        rfl
    refine h.latch hmap ho hs htk hlv hfl h1 rfl rfl rfl rfl rfl rfl rfl rfl rfl (.inr ⟨hld, ?_⟩)
    rw [finishPageLoad, hload]
  · rename_i hmap
    cases h1
    rw [if_pos hmap]
    refine h.goto (.loader p w) ho.symm hs.symm (fun p' hp' => ?_) rfl htk.symm hlv.symm hfl.symm
      (h.registered.goto (.loader p w) hld.symm rfl rfl)
    cases hp'
    exact hmap

theorem Inv.claimFrame (hpc : s.pc t = .loader p w) (h1 : s.claimFrame t p w f = some s') :
    s'.Inv := by
  have ho : (s.pc t).owned = none := by rw [hpc]; rfl
  have hs : (s.pc t).shared = none := by rw [hpc]; rfl
  have hld : (s.pc t).loads = some p := by rw [hpc]; rfl
  have hreg : ∀ v, ∀ s1 : LoadState α, s1.loading = s.loading →
      s1.pc = update s.pc t (.claimed p w f v) → s1.Registered :=
    fun v s1 => h.registered.goto (.claimed p w f v) hld.symm
  unfold LoadState.claimFrame at h1
  split at h1
  · cases h1
  rename_i hlatched
  have hun : s.unlatched f = true := by simpa using hlatched
  split at h1
  · rename_i g rest hfree
    split at h1
    · rename_i hg
      cases h1
      subst hg
      exact ⟨h.latched.acquire hun ho hs rfl rfl rfl rfl rfl, hreg none _ rfl rfl,
        h.placed.claim_free hpc hfree⟩
    · cases h1
  · rename_i hfree
    split at h1
    · rename_i hf
      cases h1
      exact ⟨h.latched.acquire hun ho hs rfl rfl rfl rfl rfl, hreg _ _ rfl rfl,
        h.placed.claim_victim h.latched hpc hfree hf hun⟩
    · cases h1

/-- What one step keeps. -/
theorem Inv.step {e : LoadEvent α} (hok : s.Settled e) (h1 : s.step e = some s') : s'.Inv := by
  cases e with
  | lookup t p w =>
    simp only [LoadState.step] at h1
    split at h1
    · rename_i hpc
      exact h.lookup (.inl hpc) h1
    · rename_i p' w' hpc
      split at h1
      · rename_i hw
        obtain ⟨rfl, rfl, -⟩ := hw
        exact h.lookup (.inr hpc) h1
      · cases h1
    · cases h1
  | register t =>
    simp only [LoadState.step] at h1
    split at h1
    · rename_i p w hpc
      split at h1
      · rename_i hp
        cases h1
        exact h.goto (.registered p w) (by rw [hpc]; rfl) (by rw [hpc]; rfl) nofun rfl
          (by rw [hpc]; rfl) (by rw [hpc]; rfl) (by rw [hpc]; rfl)
          (h.registered.register hp (by rw [hpc]; rfl) rfl rfl rfl)
      · cases h1
        exact h.goto (.waiting p w) (by rw [hpc]; rfl) (by rw [hpc]; rfl) nofun rfl
          (by rw [hpc]; rfl) (by rw [hpc]; rfl) (by rw [hpc]; rfl)
          (h.registered.goto (.waiting p w) (by rw [hpc]; rfl) rfl rfl)
    · cases h1
  | relookup t =>
    simp only [LoadState.step] at h1
    split at h1
    · rename_i p w hpc
      obtain ⟨s1, hs1, rfl⟩ := map_eq_some_iff.1 h1
      exact h.relookup hpc hs1
    · cases h1
  | claim t f =>
    simp only [LoadState.step] at h1
    split at h1
    · rename_i p w hpc
      exact h.claimFrame hpc h1
    · cases h1
  | allPinned t =>
    simp only [LoadState.step] at h1
    split at h1
    · rename_i p w hpc
      split at h1
      · cases h1
        exact h.goto .idle (by rw [hpc]; rfl) (by rw [hpc]; rfl) nofun rfl (by rw [hpc]; rfl)
          (by rw [hpc]; rfl) (by rw [hpc]; rfl)
          (h.registered.finish (by rw [hpc]; rfl) rfl rfl rfl)
      · cases h1
    · cases h1
  | writeBack t =>
    simp only [LoadState.step] at h1
    split at h1
    · rename_i p w f q hpc
      cases h1
      exact ⟨h.latched.goto (.claimed p w f none) (by rw [hpc]; rfl) (by rw [hpc]; rfl) rfl rfl rfl,
        h.registered.goto (.claimed p w f none) (by rw [hpc]; rfl) rfl rfl,
        h.placed.writeBack hpc⟩
    · cases h1
  | readPage t =>
    simp only [LoadState.step] at h1
    split at h1
    · rename_i p w f hpc
      cases h1
      have hset := hok p (by rw [hpc]; rfl)
      exact ⟨h.latched.goto (.filled p w f) (by rw [hpc]; rfl) (by rw [hpc]; rfl) rfl rfl rfl,
        h.registered.goto (.filled p w f) (by rw [hpc]; rfl) rfl rfl,
        h.placed.readPage h.latched hpc hset⟩
    · cases h1
  | install t =>
    simp only [LoadState.step] at h1
    split at h1
    · rename_i p w f hpc
      cases h1
      refine ⟨?_, h.registered.finish (by rw [hpc]; rfl) rfl rfl rfl,
        h.placed.install h.latched h.registered hpc⟩
      cases w with
      | true =>
        exact h.latched.goto (.holding p true f) (by rw [hpc]; rfl) (by rw [hpc]; rfl) rfl rfl rfl
      | false =>
        exact h.latched.disown (by rw [hpc]; rfl) (by rw [hpc]; rfl) rfl (.inr ⟨rfl, rfl⟩) rfl rfl
    · cases h1
  | modify t a =>
    simp only [LoadState.step] at h1
    split at h1
    · rename_i p w f hpc
      cases h1
      exact ⟨⟨h.latched.writer, h.latched.reader, h.latched.excl⟩, h.registered,
        h.placed.modify hpc a⟩
    · cases h1
  | release t =>
    simp only [LoadState.step] at h1
    split at h1
    · rename_i p w f hpc
      cases h1
      refine ⟨?_, h.registered.goto .idle (by rw [hpc]; rfl) rfl rfl,
        h.placed.goto .idle nofun nofun (by rw [hpc]; rfl) (by rw [hpc]; rfl) (by rw [hpc]; rfl) rfl
          rfl rfl rfl rfl rfl rfl⟩
      cases w with
      | true =>
        exact h.latched.disown (by rw [hpc]; rfl) (by rw [hpc]; rfl) rfl (.inl ⟨rfl, rfl⟩) rfl rfl
      | false =>
        exact h.latched.unshare (by rw [hpc]; rfl) (by rw [hpc]; rfl) rfl rfl rfl rfl rfl
    · cases h1

end

/-- The steps of the threads as a relation. -/
def Step (s : LoadState α) (e : LoadEvent α) (s' : LoadState α) : Prop := s.step e = some s'

theorem run_inv {n : Nat} {blank : α} {disk : PageNo → α} {es : List (LoadEvent α)}
    (run : Steps (guarded Settled Step) (start n blank disk) es s) : s.Inv :=
  run.inv (fun _ s => s.Inv) (start_inv n blank disk) fun _ _ _ _ h hstep => h.step hstep.1 hstep.2

end LoadState

open LoadState in
/-- In every run in which no page is read from disk while a write-back of it is pending, whoever has
    a page through `buf_page_read` has its last content. -/
theorem bufPageRead_last {α : Type} {n : Nat} {blank : α} {disk : PageNo → α}
    {es : List (LoadEvent α)} {s : LoadState α}
    (run : Steps (guarded Settled Step) (start n blank disk) es s) {t f : Nat} {p : PageNo}
    {w : Bool} (hpc : s.pc t = .holding p w f) : (s.frames f).data = s.last p := by
  have h := (run_inv run).placed
  exact (h.current p f (h.held t p f (by rw [hpc]; rfl))).1

/-- The thread of a step. -/
def LoadEvent.thread {α : Type} : LoadEvent α → Nat
  | .lookup t _ _ | .register t | .relookup t | .claim t _ | .allPinned t | .writeBack t
  | .readPage t | .install t | .modify t _ | .release t => t

namespace LoadState

variable {α : Type} {s s' : LoadState α}

variable {t : Nat} {p : PageNo} {w : Bool}

theorem latch_pc {f : Nat} (h : s.latch t p w f = some s') :
    s'.pc = update s.pc t (.holding p w f) := by
  unfold latch at h
  split_ifs at h
  · cases h
    rfl
  · cases h
    rfl

theorem tryLatch_pc {miss : LoadPc} (h : s.tryLatch t p w miss = some s') :
    ∃ pc, s'.pc = update s.pc t pc := by
  unfold tryLatch at h
  split at h
  · exact ⟨_, latch_pc h⟩
  · cases h
    exact ⟨_, rfl⟩

variable {e : LoadEvent α}

/-- A step moves its own thread alone. -/
theorem step_pc (h : s.step e = some s') :
    s'.pc = s.pc ∨ ∃ pc, s'.pc = update s.pc e.thread pc := by
  cases e with
  | lookup t p w =>
    simp only [step] at h
    split at h
    · exact .inr (tryLatch_pc h)
    · split at h
      · exact .inr (tryLatch_pc h)
      · cases h
    · cases h
  | relookup t =>
    simp only [step] at h
    split at h
    · obtain ⟨s1, h1, rfl⟩ := map_eq_some_iff.1 h
      obtain ⟨pc, hpc⟩ := tryLatch_pc h1
      refine .inr ⟨pc, ?_⟩
      split_ifs
      · exact hpc
      · exact hpc
    · cases h
  | claim t f =>
    simp only [step] at h
    split at h
    · unfold claimFrame at h
      split at h
      · cases h
      split at h
      · split at h
        · cases h
          exact .inr ⟨_, rfl⟩
        · cases h
      · split at h
        · cases h
          exact .inr ⟨_, rfl⟩
        · cases h
    · cases h
  | modify t a =>
    simp only [step] at h
    split at h
    · cases h
      exact .inl rfl
    · cases h
  | register t =>
    simp only [step] at h
    split at h
    · split at h
      · cases h
        exact .inr ⟨_, rfl⟩
      · cases h
        exact .inr ⟨_, rfl⟩
    · cases h
  | allPinned t =>
    simp only [step] at h
    split at h
    · split at h
      · cases h
        exact .inr ⟨_, rfl⟩
      · cases h
    · cases h
  | writeBack t | readPage t | install t | release t =>
    simp only [step] at h
    split at h
    · cases h
      exact .inr ⟨_, rfl⟩
    · cases h

/-- The step is settled as far as the first `k` threads go. -/
def settledBelow (k : Nat) (s : LoadState α) : LoadEvent α → Bool
  | .readPage t => (List.range k).all fun t' =>
      (s.pc t').leaves.map Prod.fst ≠ (s.pc t).loads || (s.pc t).loads = none
  | _ => true

/-- A settled step of one of the first `k` threads. -/
def checked (k : Nat) (s : LoadState α) (e : LoadEvent α) : Option (LoadState α) :=
  if e.thread < k ∧ s.settledBelow k e = true then s.step e else none

theorem settled_of_below {k : Nat} (hidle : ∀ t, k ≤ t → s.pc t = .idle)
    (h : s.settledBelow k e = true) : s.Settled e := by
  cases e with
  | readPage t =>
    intro p hp t' f hleaves
    by_cases ht : t' < k
    · have hall := all_eq_true.1 h t' (mem_range.2 ht)
      rw [hp, hleaves] at hall
      simp at hall
    · rw [hidle t' (Nat.not_lt.1 ht)] at hleaves
      cases hleaves
  | _ => trivial

/-- A run of checked steps is a run of settled ones. -/
theorem steps_of_checked {k : Nat} {es : List (LoadEvent α)} : ∀ {s s' : LoadState α},
    (∀ t, k ≤ t → s.pc t = .idle) → runAll (checked k) s es = some s' →
      Steps (guarded Settled Step) s es s' := by
  induction es with
  | nil =>
    intro s s' _ h
    cases h
    exact .nil
  | cons e es ih =>
    intro s s' hidle h
    obtain ⟨s1, h1, h⟩ := bind_eq_some_iff.1 h
    unfold checked at h1
    split_ifs at h1 with hc
    refine .cons ⟨settled_of_below hidle hc.2, h1⟩ (ih (fun t ht => ?_) h)
    obtain hpc | ⟨pc, hpc⟩ := step_pc h1
    · rw [hpc]
      exact hidle t ht
    · rw [hpc, update_of_ne (Nat.ne_of_gt (Nat.lt_of_lt_of_le hc.1 ht))]
      exact hidle t ht

end LoadState

/-- Thread `t` loads page `p` into frame `f`. -/
def loadInto (t : Nat) (p : PageNo) (f : Nat) : List (LoadEvent Nat) :=
  [.lookup t p true, .register t, .relookup t, .claim t f, .readPage t, .install t]

/-- Thread 0 writes 5 to page 1 and gives it back; thread 1 takes its frame for page 2. -/
def evictDirty : List (LoadEvent Nat) :=
  loadInto 0 1 0 ++ [.modify 0 5, .release 0] ++
    [.lookup 1 2 true, .register 1, .relookup 1, .claim 1 0]

/-- The write-back comes before thread 0 reads the page again. -/
def settledCalls : List (LoadEvent Nat) :=
  evictDirty ++ [.writeBack 1, .readPage 1, .install 1, .release 1] ++ loadInto 0 1 0

open LoadState in
theorem bufPageRead_last_settled : ∃ s : LoadState Nat,
    Steps (guarded Settled Step) (start 1 0 fun _ => 0) settledCalls s ∧
      s.pc 0 = .holding 1 true 0 ∧ (s.frames 0).data = s.last 1 := by
  have hpc : (runAll (checked 2) (start 1 0 fun _ => 0) settledCalls).map (fun s => s.pc 0) =
      some (.holding 1 true 0) := by decide +kernel
  obtain ⟨s, hs, hpc⟩ := Option.map_eq_some_iff.1 hpc
  have hrun := steps_of_checked (fun t _ => rfl) hs
  exact ⟨s, hrun, hpc, bufPageRead_last hrun hpc⟩

/-- Pages 1 and 3 fill a pool of two frames, thread 0 leaves 5 in page 1, and thread 1 takes its
    frame. Before the write-back, thread 2 loads page 1 into the other frame. -/
def unsettledCalls : List (LoadEvent Nat) :=
  loadInto 0 1 0 ++ [.modify 0 5, .release 0] ++ loadInto 0 3 1 ++ [.release 0] ++
    [.lookup 1 2 true, .register 1, .relookup 1, .claim 1 0] ++ loadInto 2 1 1

open LoadState in
theorem bufPageRead_stale :
    ¬ ∀ (n blank : Nat) (disk : PageNo → Nat) (es : List (LoadEvent Nat)) (s : LoadState Nat)
      (t f : Nat) (p : PageNo) (w : Bool), Steps Step (start n blank disk) es s →
      s.pc t = .holding p w f → (s.frames f).data = s.last p := by
  intro hall
  have hrun : (runAll step (start 2 0 fun _ => 0) unsettledCalls).map (fun s => (s.pc 2,
      (s.frames 1).data, s.last 1)) = some (.holding 1 true 1, 0, 5) := by decide +kernel
  obtain ⟨s, hs, heq⟩ := Option.map_eq_some_iff.1 hrun
  obtain ⟨hpc, hdata, hlast⟩ : s.pc 2 = .holding 1 true 1 ∧ (s.frames 1).data = 0 ∧
      s.last 1 = 5 := by
    simpa only [Prod.mk.injEq] using heq
  have hsteps : Steps Step (start 2 0 fun _ => 0) unsettledCalls s :=
    Steps.of_runAll (fun _ _ _ h => h) hs
  have h := hall 2 0 (fun _ => 0) unsettledCalls s 2 1 1 true hsteps hpc
  rw [hdata, hlast] at h
  cases h

end BwGraph
