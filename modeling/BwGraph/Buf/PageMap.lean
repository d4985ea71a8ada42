import Mathlib.Logic.Function.Basic
import BwGraph.Io.Delta
import BwGraph.Storage.DiskManager
import BwGraph.Lib.Run

/-
  `page_map_t` (`page_map.cc`): for every CSR page a chain of delta pages, newest page first, and
  the forwarder of a consolidation in progress. The map owns the delta pool; a delta page is never
  freed and, as long as it is in a chain, never evicted. Forwarders are shared objects: an entry
  holds a handle into `forwarders`.

  Two operations move records. `insertDeltaAndGetLoc` appends one record to the chain of a page
  and returns where it went (`Appends`); `fetchDeltasWithMark` takes the whole chain off the entry,
  oldest record first, and leaves the records where readers find them (`Drains`).
-/

namespace BwGraph

open List

/-- `page_delta_t`. -/
structure PageDelta where
  forwardMap : VId → Option PageNo
  reroutedTail : VId → Option DeltaLoc

namespace PageDelta

/-- `lookup_forward`. -/
def lookupForward (d : PageDelta) (v : VId) : Option PageNo := d.forwardMap v

/-- `note_rerouted_tail`: only the first call for a vertex counts. -/
def noteReroutedTail (d : PageDelta) (v : VId) (tail : DeltaLoc) : PageDelta :=
  match d.reroutedTail v with
  | some _ => d
  | none => { d with reroutedTail := Function.update d.reroutedTail v (some tail) }

end PageDelta

/-- `page_map_entry_t`; `deltaPages` is the chain from `delta_page` on. -/
structure PageMapEntry where
  deltaPages : List PageNo
  deltaPageCount : Nat
  forwarder : Option Nat

/-- `page_map_t`, its delta pool and the delta file's manager. -/
structure PageMap where
  inner : PageNo → Option PageMapEntry
  deltaPool : PageNo → DeltaPage
  deltaDisk : DiskManager
  forwarders : Nat → PageDelta
  nextForwarder : Nat

namespace PageMap

/-- The page map over an empty delta file. -/
def create (pageSize capacity : Nat) : PageMap :=
  ⟨fun _ => none, fun _ => DeltaPage.reinit, ⟨pageSize, capacity, [], 0, 0⟩,
    fun _ => ⟨fun _ => none, fun _ => none⟩, 0⟩

/-- The record at a location of the delta pool (`get_record`). -/
def getRecord (pm : PageMap) (loc : DeltaLoc) : Option DeltaRecord :=
  (pm.deltaPool loc.pageNo).records[loc.recordIdx]?

/-- `get_or_create_entry`. -/
def getOrCreateEntry (pm : PageMap) (pageNo : PageNo) : PageMapEntry :=
  (pm.inner pageNo).getD ⟨[], 0, none⟩

/-- `alloc_delta_page`. -/
def allocDeltaPage (pm : PageMap) : PageNo × PageMap :=
  let pageNo := pm.deltaDisk.allocatePageNo
  (pageNo, { pm with
    deltaDisk := pm.deltaDisk.afterAllocate
    deltaPool := Function.update pm.deltaPool pageNo DeltaPage.reinit })

/-- Prepend a fresh delta page to the chain of an entry. -/
def pushDeltaPage (pm : PageMap) (csrPageNo : PageNo) : PageNo × PageMap :=
  let entry := pm.getOrCreateEntry csrPageNo
  let (q, pm') := pm.allocDeltaPage
  (q, { pm' with inner := Function.update pm'.inner csrPageNo (some { entry with
    deltaPages := q :: entry.deltaPages
    deltaPageCount := entry.deltaPageCount + 1 }) })

/-- Store a page of the pool. -/
def setDeltaPage (pm : PageMap) (q : PageNo) (page : DeltaPage) : PageMap :=
  { pm with deltaPool := Function.update pm.deltaPool q page }

/-- The head of the chain, created when the chain is empty. -/
def headDeltaPage (pm : PageMap) (csrPageNo : PageNo) : PageNo × PageMap :=
  match (pm.getOrCreateEntry csrPageNo).deltaPages with
  | head :: _ => (head, pm)
  | [] => pm.pushDeltaPage csrPageNo

/-- The append of `insert_delta_and_get_loc` once the head page is known. -/
def insertAtHead (cfg : Config) (csrPageNo : PageNo) (record : DeltaRecord) (head : PageNo) :
    EStateM String PageMap DeltaLoc := fun pm =>
  match (pm.deltaPool head).insertDelta cfg record with
  | some page => .ok ⟨head, (pm.deltaPool head).records.length⟩ (pm.setDeltaPage head page)
  | none =>
    let (newPage, pm) := pm.pushDeltaPage csrPageNo
    match (pm.deltaPool newPage).insertDelta cfg record with
    | some page => .ok ⟨newPage, 0⟩ (pm.setDeltaPage newPage page)
    | none => .error "insert_delta_and_get_loc: insert failed on fresh page" pm

/-- `insert_delta_and_get_loc`. -/
def insertDeltaAndGetLoc (cfg : Config) (csrPageNo : PageNo) (record : DeltaRecord) :
    EStateM String PageMap DeltaLoc := fun pm =>
  let (head, pm) := pm.headDeltaPage csrPageNo
  insertAtHead cfg csrPageNo record head pm

/-- The records of a chain, oldest first. -/
def pageRecs (pm : PageMap) (pageNo : PageNo) : List DeltaRecord :=
  ((pm.getOrCreateEntry pageNo).deltaPages.reverse).flatMap fun q => (pm.deltaPool q).records

/-- `fetch_deltas_with_mark`. -/
def fetchDeltasWithMark (pm : PageMap) (pageNo : PageNo) : List DeltaRecord × PageMap :=
  match pm.inner pageNo with
  | none => ([], pm)
  | some entry =>
    (pm.pageRecs pageNo, { pm with
      deltaPool := fun q => if q ∈ entry.deltaPages then
        { pm.deltaPool q with status := .consolidate } else pm.deltaPool q
      inner := Function.update pm.inner pageNo
        (some { entry with deltaPages := [], deltaPageCount := 0 }) })

/-- `get_delta_chain_length`. -/
def getDeltaChainLength (pm : PageMap) (pageNo : PageNo) : Nat :=
  match pm.inner pageNo with
  | none => 0
  | some entry => entry.deltaPageCount

/-- `truncate_chain_at`, on a valid location. -/
def truncateChainAt (pm : PageMap) (loc : DeltaLoc) : PageMap :=
  pm.setDeltaPage loc.pageNo ((pm.deltaPool loc.pageNo).clearRecordNext loc.recordIdx)

/-! ## Forwarders -/

/-- `acquire_forwarder_for`. -/
def acquireForwarderFor (pm : PageMap) (csrPageNo : PageNo) : Option Nat :=
  (pm.inner csrPageNo).bind PageMapEntry.forwarder

/-- `std::make_shared<page_delta_t>` with a forwarding map. -/
def makeForwarder (pm : PageMap) (forwardMap : VId → Option PageNo) : Nat × PageMap :=
  (pm.nextForwarder, { pm with
    forwarders := Function.update pm.forwarders pm.nextForwarder ⟨forwardMap, fun _ => none⟩
    nextForwarder := pm.nextForwarder + 1 })

/-- `install_forwarder_for`. -/
def installForwarderFor (pm : PageMap) (csrPageNo : PageNo) (forwarder : Nat) : PageMap :=
  { pm with
    inner := Function.update pm.inner csrPageNo
      (some { pm.getOrCreateEntry csrPageNo with forwarder := some forwarder }) }

/-- `detach_forwarder_for`. -/
def detachForwarderFor (pm : PageMap) (csrPageNo : PageNo) : PageMap :=
  match pm.inner csrPageNo with
  | none => pm
  | some entry =>
    { pm with
      inner := Function.update pm.inner csrPageNo (some { entry with forwarder := none }) }

/-- `note_rerouted_tail` on a shared forwarder. -/
def noteReroutedTail (pm : PageMap) (forwarder : Nat) (v : VId) (tail : DeltaLoc) : PageMap :=
  { pm with
    forwarders := Function.update pm.forwarders forwarder
      ((pm.forwarders forwarder).noteReroutedTail v tail) }

/-- The page a writer of `src` appends to, and the forwarder that sent it there. -/
def routeOf (pm : PageMap) (csrPageNo : PageNo) (src : VId) : PageNo × Option Nat :=
  match pm.acquireForwarderFor csrPageNo with
  | none => (csrPageNo, none)
  | some f =>
    match (pm.forwarders f).lookupForward src with
    | none => (csrPageNo, none)
    | some newPno => (newPno, some f)

/-- `insert_delta_with_forward`: the location and `out_rerouted`. -/
def insertDeltaWithForward (cfg : Config) (csrPageNo : PageNo) (src : VId)
    (record : DeltaRecord) : EStateM String PageMap (DeltaLoc × Bool) := do
  let pm ← get
  let (targetPno, forwarder) := pm.routeOf csrPageNo src
  let loc ← insertDeltaAndGetLoc cfg targetPno record
  match forwarder with
  | none => return (loc, false)
  | some f =>
    modify fun pm => pm.noteReroutedTail f src loc
    return (loc, true)

/-! ## Well-formed maps -/

/-- The delta pages chained behind a CSR page, newest first. -/
def chain (pm : PageMap) (p : PageNo) : List PageNo := (pm.getOrCreateEntry p).deltaPages

/-- No delta page is in two places, and every one was allocated. -/
structure Ok (pm : PageMap) : Prop where
  pageSize : 0 < pm.deltaDisk.pageSize
  free : pm.deltaDisk.freePages = []
  unused : ∀ q, pm.deltaDisk.globalPageCount ≤ q → (pm.deltaPool q).records = []
  nodup : ∀ p, (pm.chain p).Nodup
  allocated : ∀ p, ∀ q ∈ pm.chain p, q < pm.deltaDisk.globalPageCount
  disjoint : ∀ p p' q, q ∈ pm.chain p → q ∈ pm.chain p' → p = p'

/-- The forwarders of two maps agree. -/
structure SameForwarders (pm pm' : PageMap) : Prop where
  acquire : ∀ p, pm'.acquireForwarderFor p = pm.acquireForwarderFor p
  forwarders : pm'.forwarders = pm.forwarders
  nextForwarder : pm'.nextForwarder = pm.nextForwarder

theorem SameForwarders.refl (pm : PageMap) : pm.SameForwarders pm := ⟨fun _ => rfl, rfl, rfl⟩

theorem SameForwarders.trans {pm pm' pm'' : PageMap} (h : pm.SameForwarders pm')
    (h' : pm'.SameForwarders pm'') : pm.SameForwarders pm'' :=
  ⟨fun p => (h'.acquire p).trans (h.acquire p), h'.forwarders.trans h.forwarders,
    h'.nextForwarder.trans h.nextForwarder⟩

/-- What appending `record` to the chain of `p` does. -/
structure Appends (pm pm' : PageMap) (p : PageNo) (record : DeltaRecord) (loc : DeltaLoc) :
    Prop where
  ok : pm'.Ok
  fresh : pm.getRecord loc = none
  get_self : pm'.getRecord loc = some record
  get_ne : ∀ l, l ≠ loc → pm'.getRecord l = pm.getRecord l
  recs_self : pm'.pageRecs p = pm.pageRecs p ++ [record]
  recs_ne : ∀ q, q ≠ p → pm'.pageRecs q = pm.pageRecs q
  forwarders : pm.SameForwarders pm'

variable {pm pm' : PageMap}

theorem pageRecs_eq (pm : PageMap) (p : PageNo) :
    pm.pageRecs p = (pm.chain p).reverse.flatMap fun q => (pm.deltaPool q).records := rfl

theorem create_ok {pageSize : Nat} (h : 0 < pageSize) (capacity : Nat) :
    (create pageSize capacity).Ok :=
  ⟨h, rfl, fun _ _ => rfl, fun _ => nodup_nil, fun _ _ hq => absurd hq (not_mem_nil),
    fun _ _ _ hq => absurd hq (not_mem_nil)⟩

/-- What prepending a fresh delta page does: the records stay where they are. -/
structure Pushes (pm pm' : PageMap) (p q : PageNo) : Prop where
  ok : pm'.Ok
  head : pm'.chain p = q :: pm.chain p
  get : ∀ l, pm'.getRecord l = pm.getRecord l
  recs : ∀ p', pm'.pageRecs p' = pm.pageRecs p'
  empty : (pm'.deltaPool q).records = []
  forwarders : pm.SameForwarders pm'

theorem pushes_pushDeltaPage (h : pm.Ok) (p : PageNo) :
    pm.Pushes (pm.pushDeltaPage p).2 p (pm.pushDeltaPage p).1 := by
  obtain ⟨hq, hc⟩ : pm.deltaDisk.allocatePageNo = pm.deltaDisk.globalPageCount ∧
      pm.deltaDisk.afterAllocate.globalPageCount = pm.deltaDisk.globalPageCount + 1 := by
    rcases pm.deltaDisk.allocatePage_cases h.pageSize with ⟨h1, -, -⟩ | ⟨-, -, h3, h4, -⟩
    · rw [h.free] at h1; cases h1
    · exact ⟨h3, h4⟩
  have hfree : pm.deltaDisk.afterAllocate.freePages = [] := by
    rcases pm.deltaDisk.allocatePage_cases h.pageSize with ⟨h1, -, -⟩ | ⟨-, h2, -, -, -⟩
    · rw [h.free] at h1; cases h1
    · exact h2
  have hchain_self :
      (pm.pushDeltaPage p).2.chain p = pm.deltaDisk.allocatePageNo :: pm.chain p := by
    simp [pushDeltaPage, allocDeltaPage, chain, getOrCreateEntry]
  have hchain_ne : ∀ p', p' ≠ p → (pm.pushDeltaPage p).2.chain p' = pm.chain p' := by
    intro p' hp'
    simp [pushDeltaPage, allocDeltaPage, chain, getOrCreateEntry, hp']
  have hmem : ∀ p' q, q ∈ (pm.pushDeltaPage p).2.chain p' →
      (q = pm.deltaDisk.globalPageCount ∧ p' = p) ∨ q ∈ pm.chain p' := by
    intro p' q hqm
    by_cases hp' : p' = p
    · subst hp'
      rw [hchain_self, hq] at hqm
      rcases mem_cons.1 hqm with rfl | hqm
      · exact .inl ⟨rfl, rfl⟩
      · exact .inr hqm
    · rw [hchain_ne p' hp'] at hqm
      exact .inr hqm
  have hrecs : ∀ q, ((pm.pushDeltaPage p).2.deltaPool q).records = (pm.deltaPool q).records := by
    intro q
    by_cases hqq : q = pm.deltaDisk.allocatePageNo
    · subst hqq
      simp [pushDeltaPage, allocDeltaPage, DeltaPage.reinit, h.unused _ (Nat.le_of_eq hq.symm)]
    · simp [pushDeltaPage, allocDeltaPage, hqq]
  refine ⟨⟨?_, hfree, ?_, ?_, ?_, ?_⟩, hchain_self, ?_, ?_, ?_, ⟨?_, rfl, rfl⟩⟩
  · simpa [pushDeltaPage, allocDeltaPage] using h.pageSize
  · intro q hle
    have hle' : pm.deltaDisk.globalPageCount + 1 ≤ q := hc ▸ hle
    rw [hrecs]
    exact h.unused q (Nat.le_of_succ_le hle')
  · intro p'
    by_cases hp' : p' = p
    · subst hp'
      rw [hchain_self, hq]
      exact nodup_cons.2 ⟨fun hm => Nat.lt_irrefl _ (h.allocated _ _ hm), h.nodup p'⟩
    · rw [hchain_ne p' hp']; exact h.nodup p'
  · intro p' q hqm
    show q < pm.deltaDisk.afterAllocate.globalPageCount
    rw [hc]
    rcases hmem p' q hqm with ⟨rfl, -⟩ | hqm
    · exact Nat.lt_succ_self _
    · exact Nat.lt_succ_of_lt (h.allocated p' q hqm)
  · intro p1 p2 q h1 h2
    rcases hmem p1 q h1 with ⟨e1, e1'⟩ | h1 <;> rcases hmem p2 q h2 with ⟨e2, e2'⟩ | h2
    · exact e1'.trans e2'.symm
    · exact absurd (h.allocated _ _ h2) (e1 ▸ Nat.lt_irrefl _)
    · exact absurd (h.allocated _ _ h1) (e2 ▸ Nat.lt_irrefl _)
    · exact h.disjoint p1 p2 q h1 h2
  · intro l
    rw [getRecord, getRecord, hrecs]
  · intro p'
    rw [pageRecs_eq, pageRecs_eq]
    by_cases hp' : p' = p
    · subst hp'
      rw [hchain_self, reverse_cons, flatMap_append]
      simp only [hrecs, flatMap_singleton, h.unused _ (Nat.le_of_eq hq.symm), append_nil]
    · rw [hchain_ne p' hp']
      simp only [hrecs]
  · show ((pm.pushDeltaPage p).2.deltaPool pm.deltaDisk.allocatePageNo).records = []
    rw [hrecs]
    exact h.unused _ (Nat.le_of_eq hq.symm)
  · intro p'
    by_cases hp' : p' = p
    · subst hp'
      cases hi : pm.inner p' <;>
        simp [pushDeltaPage, allocDeltaPage, acquireForwarderFor, getOrCreateEntry, hi]
    · simp [pushDeltaPage, allocDeltaPage, acquireForwarderFor, hp']

variable {record : DeltaRecord} {p q : PageNo} {cfg : Config}

variable {rest : List PageNo} {loc : DeltaLoc}

/-- Storing one more record on the head page of a chain. -/
theorem appends_setDeltaPage (h : pm.Ok) (hq : pm.chain p = q :: rest) {page : DeltaPage}
    (hpage : page.records = (pm.deltaPool q).records ++ [record]) :
    pm.Appends (pm.setDeltaPage q page) p record ⟨q, (pm.deltaPool q).records.length⟩ := by
  have hpool_ne : ∀ q', q' ≠ q → (pm.setDeltaPage q page).deltaPool q' = pm.deltaPool q' := by
    intro q' hne
    simp [setDeltaPage, hne]
  have hpool_self : (pm.setDeltaPage q page).deltaPool q = page := by simp [setDeltaPage]
  have hother : ∀ p', p' ≠ p → ∀ q' ∈ pm.chain p', q' ≠ q := by
    intro p' hp' q' hm he
    subst he
    exact hp' (h.disjoint p' p q' hm (hq ▸ mem_cons_self))
  have hrest : ∀ q' ∈ rest.reverse, q' ≠ q := by
    intro q' hm he
    subst he
    have hn := h.nodup p
    rw [hq] at hn
    exact (nodup_cons.1 hn).1 (mem_reverse.1 hm)
  refine ⟨⟨h.pageSize, h.free, ?_, h.nodup, h.allocated, h.disjoint⟩, ?_, ?_, ?_, ?_, ?_,
    ⟨fun _ => rfl, rfl, rfl⟩⟩
  · intro q' hle
    have hne : q' ≠ q := by
      rintro rfl
      exact absurd (h.allocated p q' (hq ▸ mem_cons_self)) (Nat.not_lt.2 hle)
    rw [hpool_ne q' hne]
    exact h.unused q' hle
  · simp [getRecord]
  · simp [getRecord, hpool_self, hpage]
  · intro l hl
    by_cases hne : l.pageNo = q
    · have hidx : l.recordIdx ≠ (pm.deltaPool q).records.length := by
        intro he
        exact hl (by cases l; simp_all)
      rw [getRecord, getRecord, hne, hpool_self, hpage]
      rcases Nat.lt_or_gt_of_ne hidx with hlt | hgt
      · rw [getElem?_append_left hlt]
      · rw [getElem?_eq_none (by simp; omega), getElem?_eq_none (by omega)]
    · rw [getRecord, getRecord, hpool_ne _ hne]
  · have hcong : rest.reverse.flatMap (fun q' => ((pm.setDeltaPage q page).deltaPool q').records) =
        rest.reverse.flatMap fun q' => (pm.deltaPool q').records :=
      flatMap_congr fun q' hm => by rw [hpool_ne q' (hrest q' hm)]
    have hc' : (pm.setDeltaPage q page).chain p = q :: rest := hq
    rw [pageRecs_eq, pageRecs_eq, hc', hq, reverse_cons, flatMap_append,
      flatMap_append, hcong]
    simp only [flatMap_singleton, hpool_self, hpage, append_assoc]
  · intro p' hp'
    have hc' : (pm.setDeltaPage q page).chain p' = pm.chain p' := rfl
    rw [pageRecs_eq, pageRecs_eq, hc']
    exact flatMap_congr fun q' hm => by
      rw [hpool_ne q' (hother p' hp' q' (mem_reverse.1 hm))]

theorem Pushes.appends {pm1 pm2 : PageMap} (h1 : pm.Pushes pm1 p q)
    (h2 : pm1.Appends pm2 p record loc) : pm.Appends pm2 p record loc :=
  ⟨h2.ok, by rw [← h1.get]; exact h2.fresh, h2.get_self,
    fun l hl => by rw [h2.get_ne l hl, h1.get], by rw [h2.recs_self, h1.recs],
    fun q hq => by rw [h2.recs_ne q hq, h1.recs], h1.forwarders.trans h2.forwarders⟩

theorem appends_insertAtHead (h : pm.Ok) (hq : pm.chain p = q :: rest)
    (hins : insertAtHead cfg p record q pm = .ok loc pm') : pm.Appends pm' p record loc := by
  unfold insertAtHead at hins
  split at hins
  · rename_i page hpage
    cases hins
    exact appends_setDeltaPage h hq (DeltaPage.insertDelta_records hpage)
  · have hpush := pushes_pushDeltaPage h p
    simp only at hins
    split at hins
    · rename_i page hpage
      cases hins
      have happ := appends_setDeltaPage hpush.ok hpush.head (DeltaPage.insertDelta_records hpage)
      rw [hpush.empty, length_nil] at happ
      exact hpush.appends happ
    · cases hins

/-- `insert_delta_and_get_loc`, when it returns, appends the record. -/
theorem appends_insertDeltaAndGetLoc (h : pm.Ok) {p : PageNo}
    (hins : insertDeltaAndGetLoc cfg p record pm = .ok loc pm') : pm.Appends pm' p record loc := by
  unfold insertDeltaAndGetLoc at hins
  cases hc : pm.chain p with
  | cons head rest =>
    have hh : pm.headDeltaPage p = (head, pm) := by
      unfold headDeltaPage
      rw [show (pm.getOrCreateEntry p).deltaPages = head :: rest from hc]
    rw [hh] at hins
    exact appends_insertAtHead h hc hins
  | nil =>
    have hh : pm.headDeltaPage p = pm.pushDeltaPage p := by
      unfold headDeltaPage
      rw [show (pm.getOrCreateEntry p).deltaPages = [] from hc]
    rw [hh] at hins
    have hpush := pushes_pushDeltaPage h p
    exact hpush.appends (appends_insertAtHead hpush.ok hpush.head hins)

/-- What taking the chain of `p` off its entry does. -/
structure Drains (pm pm' : PageMap) (p : PageNo) : Prop where
  ok : pm'.Ok
  get : ∀ l, pm'.getRecord l = pm.getRecord l
  recs_self : pm'.pageRecs p = []
  recs_ne : ∀ q, q ≠ p → pm'.pageRecs q = pm.pageRecs q
  length : pm'.getDeltaChainLength p = 0
  forwarders : pm.SameForwarders pm'

theorem fetchDeltasWithMark_fst (pm : PageMap) (p : PageNo) :
    (pm.fetchDeltasWithMark p).1 = pm.pageRecs p := by
  unfold fetchDeltasWithMark
  cases hi : pm.inner p with
  | none => simp [pageRecs, getOrCreateEntry, hi]
  | some e => rfl

theorem drains_fetchDeltasWithMark (h : pm.Ok) (p : PageNo) :
    pm.Drains (pm.fetchDeltasWithMark p).2 p := by
  unfold fetchDeltasWithMark
  cases hi : pm.inner p with
  | none =>
    exact ⟨h, fun _ => rfl, by simp [pageRecs, getOrCreateEntry, hi], fun _ _ => rfl,
      by simp [getDeltaChainLength, hi], SameForwarders.refl pm⟩
  | some e =>
    simp only
    set pm1 : PageMap := { pm with
      deltaPool := fun q => if q ∈ e.deltaPages then
        { pm.deltaPool q with status := .consolidate } else pm.deltaPool q
      inner := Function.update pm.inner p (some { e with deltaPages := [], deltaPageCount := 0 }) }
      with hpm1
    have hrecs : ∀ q, (pm1.deltaPool q).records = (pm.deltaPool q).records := by
      intro q
      simp only [hpm1]
      split_ifs <;> rfl
    have hself : pm1.chain p = [] := by simp [hpm1, chain, getOrCreateEntry]
    have hne : ∀ p', p' ≠ p → pm1.chain p' = pm.chain p' := by
      intro p' hp'
      simp [hpm1, chain, getOrCreateEntry, hp']
    have hsub : ∀ p' q, q ∈ pm1.chain p' → q ∈ pm.chain p' := by
      intro p' q hq
      by_cases hp' : p' = p
      · subst hp'; rw [hself] at hq; cases hq
      · rwa [hne p' hp'] at hq
    refine ⟨⟨h.pageSize, h.free, fun q hq => (hrecs q).trans (h.unused q hq), fun p' => ?_,
      fun p' q hq => h.allocated p' q (hsub p' q hq),
      fun p1 p2 q h1 h2 => h.disjoint p1 p2 q (hsub p1 q h1) (hsub p2 q h2)⟩,
      fun l => by rw [getRecord, getRecord, hrecs], ?_, fun q hq => ?_, ?_, ⟨fun p' => ?_, rfl, rfl⟩⟩
    · by_cases hp' : p' = p
      · subst hp'; rw [hself]; exact nodup_nil
      · rw [hne p' hp']; exact h.nodup p'
    · rw [pageRecs_eq, hself]; rfl
    · rw [pageRecs_eq, pageRecs_eq, hne q hq]
      simp only [hrecs]
    · simp [hpm1, getDeltaChainLength]
    · by_cases hp' : p' = p
      · subst hp'
        simp [hpm1, acquireForwarderFor, hi]
      · simp [hpm1, acquireForwarderFor, hp']

/-! ## Cutting chains -/

/-- The record without its link. -/
def unlink (r : DeltaRecord) : DeltaRecord := { r with next := none }

theorem getRecord_truncateChainAt (pm : PageMap) (b l : DeltaLoc) :
    (pm.truncateChainAt b).getRecord l =
      if l = b then (pm.getRecord l).map unlink else pm.getRecord l := by
  unfold truncateChainAt getRecord setDeltaPage DeltaPage.clearRecordNext
  by_cases hp : l.pageNo = b.pageNo
  · simp only [hp, Function.update_self, getElem?_modify]
    by_cases hi : b.recordIdx = l.recordIdx
    · have hl : l = b := by
        cases l
        cases b
        simp_all
      simp only [if_pos hi, if_pos hl]
      rfl
    · have hl : l ≠ b := fun he => hi (by rw [he])
      simp [if_neg hi, if_neg hl]
  · have hl : l ≠ b := fun he => hp (by rw [he])
    rw [if_neg hl]
    simp [hp]

theorem Ok.truncateChainAt (h : pm.Ok) (b : DeltaLoc) : (pm.truncateChainAt b).Ok := by
  refine ⟨h.pageSize, h.free, fun q hq => ?_, h.nodup, h.allocated, h.disjoint⟩
  by_cases hp : q = b.pageNo
  · subst hp
    have hnil := h.unused _ hq
    simp [PageMap.truncateChainAt, setDeltaPage, DeltaPage.clearRecordNext, hnil]
  · simp only [PageMap.truncateChainAt, setDeltaPage, ne_eq, hp, not_false_eq_true,
      Function.update_of_ne]
    exact h.unused q hq

/-- `pm'` is `pm` with the links of the records at the locations `B` cleared, up to forwarders. -/
structure Cuts (pm pm' : PageMap) (B : Set DeltaLoc) : Prop where
  chain : ∀ p, pm'.chain p = pm.chain p
  deltaDisk : pm'.deltaDisk = pm.deltaDisk
  cut : ∀ l ∈ B, pm'.getRecord l = (pm.getRecord l).map unlink
  keep : ∀ l, l ∉ B → pm'.getRecord l = pm.getRecord l

theorem cuts_truncateChainAt (pm : PageMap) (b : DeltaLoc) :
    pm.Cuts (pm.truncateChainAt b) {l | l = b} := by
  refine ⟨fun _ => rfl, rfl, fun l hl => ?_, fun l hl => ?_⟩
  · exact (getRecord_truncateChainAt pm b l).trans (if_pos hl)
  · exact (getRecord_truncateChainAt pm b l).trans (if_neg hl)

variable {pm'' : PageMap}

theorem Cuts.trans {B B' : Set DeltaLoc} (h : pm.Cuts pm' B) (h' : pm'.Cuts pm'' B') :
    pm.Cuts pm'' {l | l ∈ B ∨ l ∈ B'} := by
  refine ⟨fun p => (h'.chain p).trans (h.chain p), h'.deltaDisk.trans h.deltaDisk,
    fun l hl => ?_, fun l hl => ?_⟩
  · by_cases hB : l ∈ B <;> by_cases hB' : l ∈ B'
    · rw [h'.cut l hB', h.cut l hB, Option.map_map]
      rfl
    · rw [h'.keep l hB', h.cut l hB]
    · rw [h'.cut l hB', h.keep l hB]
    · exact absurd hl (not_or.2 ⟨hB, hB'⟩)
  · obtain ⟨hB, hB'⟩ := not_or.1 hl
    rw [h'.keep l hB', h.keep l hB]

variable {B : Set DeltaLoc}

section

variable (h : pm.Cuts pm' B)
include h

theorem Cuts.get_unlink (l : DeltaLoc) :
    (pm'.getRecord l).map unlink = (pm.getRecord l).map unlink := by
  by_cases hl : l ∈ B
  · rw [h.cut l hl, Option.map_map]
    rfl
  · rw [h.keep l hl]

theorem Cuts.records_unlink (q : PageNo) :
    (pm'.deltaPool q).records.map unlink = (pm.deltaPool q).records.map unlink := by
  apply ext_getElem?
  intro i
  rw [getElem?_map, getElem?_map]
  exact h.get_unlink ⟨q, i⟩

theorem Cuts.length (q : PageNo) :
    (pm'.deltaPool q).records.length = (pm.deltaPool q).records.length := by
  have hlen := congrArg List.length (h.records_unlink q)
  rwa [length_map, length_map] at hlen

theorem Cuts.pageRecs_unlink (p : PageNo) :
    (pm'.pageRecs p).map unlink = (pm.pageRecs p).map unlink := by
  rw [pageRecs_eq, pageRecs_eq, map_flatMap, map_flatMap, h.chain]
  simp only [h.records_unlink]

end

/-! ## Appending in step -/

/-- The chains of two maps have the same pages, equally full. -/
structure Mirrors (pm pm' : PageMap) : Prop where
  chain : ∀ p, pm'.chain p = pm.chain p
  deltaDisk : pm'.deltaDisk = pm.deltaDisk
  length : ∀ q, (pm'.deltaPool q).records.length = (pm.deltaPool q).records.length

theorem Mirrors.symm (h : pm.Mirrors pm') : pm'.Mirrors pm :=
  ⟨fun p => (h.chain p).symm, h.deltaDisk.symm, fun q => (h.length q).symm⟩

theorem Mirrors.ok (h : pm.Mirrors pm') (hok : pm.Ok) : pm'.Ok := by
  refine ⟨h.deltaDisk ▸ hok.pageSize, h.deltaDisk ▸ hok.free, fun q hq => ?_,
    fun p => h.chain p ▸ hok.nodup p, fun p q hq => ?_, fun p p' q hq hq' => ?_⟩
  · rw [h.deltaDisk] at hq
    rw [← length_eq_zero_iff, h.length, hok.unused q hq]
    rfl
  · rw [h.deltaDisk]
    exact hok.allocated p q (h.chain p ▸ hq)
  · exact hok.disjoint p p' q (h.chain p ▸ hq) (h.chain p' ▸ hq')

theorem Cuts.mirrors (h : pm.Cuts pm' B) : pm.Mirrors pm' := ⟨h.chain, h.deltaDisk, h.length⟩

theorem Mirrors.pushDeltaPage (h : pm.Mirrors pm') (p : PageNo) :
    (pm'.pushDeltaPage p).1 = (pm.pushDeltaPage p).1 ∧
      (pm.pushDeltaPage p).2.Mirrors (pm'.pushDeltaPage p).2 := by
  have hc := h.chain p
  unfold PageMap.chain at hc
  refine ⟨by simp [PageMap.pushDeltaPage, allocDeltaPage, h.deltaDisk], fun p' => ?_, ?_,
    fun q => ?_⟩
  · by_cases hp : p' = p
    · subst hp
      simp [PageMap.pushDeltaPage, allocDeltaPage, PageMap.chain, getOrCreateEntry, h.deltaDisk]
      simpa [getOrCreateEntry] using hc
    · have hc' := h.chain p'
      simp only [PageMap.chain, getOrCreateEntry] at hc'
      simpa [PageMap.pushDeltaPage, allocDeltaPage, PageMap.chain, getOrCreateEntry, hp] using hc'
  · simp [PageMap.pushDeltaPage, allocDeltaPage, h.deltaDisk]
  · by_cases hq : q = pm.deltaDisk.allocatePageNo
    · subst hq
      simp [PageMap.pushDeltaPage, allocDeltaPage, h.deltaDisk]
    · simpa [PageMap.pushDeltaPage, allocDeltaPage, h.deltaDisk, hq] using h.length q

/-- A record fits on a page if one fits on a page as full. -/
theorem insertDelta_of_length {page page' page1 : DeltaPage}
    (hlen : page'.records.length = page.records.length)
    (h : page.insertDelta cfg record = some page1) (record' : DeltaRecord) :
    ∃ page1', page'.insertDelta cfg record' = some page1' ∧
      page1'.records.length = page1.records.length := by
  have hrec := DeltaPage.insertDelta_records h
  unfold DeltaPage.insertDelta at h ⊢
  have hused : page'.usedBytes = page.usedBytes := by rw [DeltaPage.usedBytes, hlen]; rfl
  rw [hused]
  split_ifs at h ⊢ with hfull
  refine ⟨_, rfl, ?_⟩
  rw [hrec, length_append, length_append, hlen]
  rfl

variable {page page' : DeltaPage}

theorem insertDelta_none_of_length (hlen : page'.records.length = page.records.length)
    (h : page.insertDelta cfg record = none) (record' : DeltaRecord) :
    page'.insertDelta cfg record' = none := by
  cases h' : page'.insertDelta cfg record' with
  | none => rfl
  | some page1 =>
    obtain ⟨page1', hsome, -⟩ := insertDelta_of_length hlen.symm h' record
    rw [h] at hsome
    cases hsome

theorem Mirrors.setDeltaPage (h : pm.Mirrors pm') (q : PageNo)
    (hlen : page'.records.length = page.records.length) :
    (pm.setDeltaPage q page).Mirrors (pm'.setDeltaPage q page') := by
  refine ⟨h.chain, h.deltaDisk, fun q' => ?_⟩
  by_cases hq : q' = q
  · subst hq
    simpa [PageMap.setDeltaPage] using hlen
  · simpa [PageMap.setDeltaPage, hq] using h.length q'

variable {pm1 : PageMap}

theorem Mirrors.insertAtHead {p head : PageNo} (h : pm.Mirrors pm')
    (hrun : insertAtHead cfg p record head pm = .ok loc pm1) (record' : DeltaRecord) :
    ∃ pm1', insertAtHead cfg p record' head pm' = .ok loc pm1' ∧ pm1.Mirrors pm1' := by
  unfold PageMap.insertAtHead at hrun ⊢
  cases hins : (pm.deltaPool head).insertDelta cfg record with
  | some page =>
    obtain ⟨page', hins', hlen⟩ := insertDelta_of_length (h.length head) hins record'
    simp only [hins, EStateM.Result.ok.injEq] at hrun
    simp only [hins']
    obtain ⟨rfl, rfl⟩ := hrun
    exact ⟨_, by rw [h.length], h.setDeltaPage head hlen⟩
  | none =>
    obtain ⟨hq, hpush⟩ := h.pushDeltaPage p
    simp only [hins] at hrun
    simp only [insertDelta_none_of_length (h.length head) hins record', hq]
    cases hins2 : ((pm.pushDeltaPage p).2.deltaPool (pm.pushDeltaPage p).1).insertDelta cfg record with
    | none =>
      rw [hins2] at hrun
      cases hrun
    | some page =>
      obtain ⟨page', hins', hlen⟩ := insertDelta_of_length (hpush.length _) hins2 record'
      simp only [hins2, EStateM.Result.ok.injEq] at hrun
      simp only [hins']
      obtain ⟨rfl, rfl⟩ := hrun
      exact ⟨_, rfl, hpush.setDeltaPage _ hlen⟩

/-- Appends to mirrored maps go to the same place, whatever the records are. -/
theorem Mirrors.insertDeltaAndGetLoc {p : PageNo} (h : pm.Mirrors pm')
    (hrun : insertDeltaAndGetLoc cfg p record pm = .ok loc pm1) (record' : DeltaRecord) :
    ∃ pm1', insertDeltaAndGetLoc cfg p record' pm' = .ok loc pm1' ∧ pm1.Mirrors pm1' := by
  unfold PageMap.insertDeltaAndGetLoc PageMap.headDeltaPage at hrun ⊢
  have hc := h.chain p
  unfold PageMap.chain at hc
  rw [hc]
  cases hch : (pm.getOrCreateEntry p).deltaPages with
  | cons head rest =>
    simp only [hch] at hrun ⊢
    exact h.insertAtHead hrun record'
  | nil =>
    obtain ⟨hq, hpush⟩ := h.pushDeltaPage p
    simp only [hch] at hrun ⊢
    rw [hq]
    exact hpush.insertAtHead hrun record'

/-- Appends to a map and to the map with its links cleared; the new record's link may be cleared
too. -/
theorem Cuts.append {pm1 pm1' : PageMap} {B' : Set DeltaLoc} {p : PageNo}
    {record record' : DeltaRecord} (h : pm.Cuts pm' B) (ha : pm.Appends pm1 p record loc)
    (ha' : pm'.Appends pm1' p record' loc) (hm : pm1.Mirrors pm1')
    (hB : ∀ l, l ≠ loc → (l ∈ B' ↔ l ∈ B)) (hcut : loc ∈ B' → record' = unlink record)
    (hkeep : loc ∉ B' → record' = record) : pm1.Cuts pm1' B' := by
  refine ⟨hm.chain, hm.deltaDisk, fun l hl => ?_, fun l hl => ?_⟩
  · by_cases he : l = loc
    · subst he
      rw [ha.get_self, ha'.get_self, hcut hl]
      rfl
    · rw [ha.get_ne l he, ha'.get_ne l he, h.cut l ((hB l he).1 hl)]
  · by_cases he : l = loc
    · subst he
      rw [ha.get_self, ha'.get_self, hkeep hl]
    · rw [ha.get_ne l he, ha'.get_ne l he, h.keep l fun hc => hl ((hB l he).2 hc)]

/-! ## Draining in step -/

theorem chain_fetchDeltasWithMark (pm : PageMap) (p q : PageNo) :
    (pm.fetchDeltasWithMark p).2.chain q = if q = p then [] else pm.chain q := by
  unfold fetchDeltasWithMark chain getOrCreateEntry
  cases hi : pm.inner p with
  | none =>
    split_ifs with hq
    · rw [hq, hi]
      rfl
    · rfl
  | some entry =>
    by_cases hq : q = p
    · simp [hq]
    · simp [hq]

theorem deltaDisk_fetchDeltasWithMark (pm : PageMap) (p : PageNo) :
    (pm.fetchDeltasWithMark p).2.deltaDisk = pm.deltaDisk := by
  unfold fetchDeltasWithMark
  split <;> rfl

/-- Draining a page of both maps keeps the relation. -/
theorem Cuts.drain (h : pm.Cuts pm' B) (hok : pm.Ok) (p : PageNo) :
    (pm.fetchDeltasWithMark p).2.Cuts (pm'.fetchDeltasWithMark p).2 B := by
  have hd := drains_fetchDeltasWithMark hok p
  have hd' := drains_fetchDeltasWithMark (h.mirrors.ok hok) p
  refine ⟨fun q => ?_, ?_, fun l hl => ?_, fun l hl => ?_⟩
  · rw [chain_fetchDeltasWithMark, chain_fetchDeltasWithMark, h.chain]
  · rw [deltaDisk_fetchDeltasWithMark, deltaDisk_fetchDeltasWithMark, h.deltaDisk]
  · rw [hd'.get, hd.get, h.cut l hl]
  · rw [hd'.get, hd.get, h.keep l hl]

/-! ## Records stay -/

/-- Every location that denotes a record goes on to denote it, up to a cleared link. -/
structure Persists (pm pm' : PageMap) : Prop where
  ok : pm'.Ok
  get : ∀ l r, pm.getRecord l = some r →
    ∃ r', pm'.getRecord l = some r' ∧ (r' = r ∨ r' = unlink r)

theorem Persists.refl (h : pm.Ok) : pm.Persists pm := ⟨h, fun _ r hr => ⟨r, hr, .inl rfl⟩⟩

theorem Persists.trans (h : pm.Persists pm') (h' : pm'.Persists pm'') : pm.Persists pm'' := by
  refine ⟨h'.ok, fun l r hr => ?_⟩
  obtain ⟨r', hr', rfl | rfl⟩ := h.get l r hr
  · exact h'.get l r' hr'
  · obtain ⟨r'', hr'', rfl | rfl⟩ := h'.get l _ hr'
    · exact ⟨_, hr'', .inr rfl⟩
    · exact ⟨_, hr'', .inr rfl⟩

theorem Persists.of_get (h : pm'.Ok) (hg : ∀ l, pm'.getRecord l = pm.getRecord l) :
    pm.Persists pm' := ⟨h, fun l r hr => ⟨r, (hg l).trans hr, .inl rfl⟩⟩

theorem Appends.persists {p : PageNo} (h : pm.Appends pm' p record loc) : pm.Persists pm' := by
  refine ⟨h.ok, fun l r hr => ⟨r, ?_, .inl rfl⟩⟩
  rw [h.get_ne l fun hl => ?_, hr]
  rw [hl, h.fresh] at hr
  cases hr

theorem persists_truncateChainAt (h : pm.Ok) (b : DeltaLoc) :
    pm.Persists (pm.truncateChainAt b) := by
  refine ⟨h.truncateChainAt b, fun l r hr => ?_⟩
  rw [getRecord_truncateChainAt, hr]
  split_ifs
  · exact ⟨_, rfl, .inr rfl⟩
  · exact ⟨_, rfl, .inl rfl⟩

/-! ## Forwarders and chains -/

/-- The maps differ in their forwarders only. -/
structure SameChains (pm pm' : PageMap) : Prop where
  chain : ∀ p, pm'.chain p = pm.chain p
  deltaPool : pm'.deltaPool = pm.deltaPool
  deltaDisk : pm'.deltaDisk = pm.deltaDisk

section

variable (h : pm.SameChains pm')
include h

theorem SameChains.ok (hok : pm.Ok) : pm'.Ok := by
  refine ⟨h.deltaDisk ▸ hok.pageSize, h.deltaDisk ▸ hok.free, ?_, fun p => h.chain p ▸ hok.nodup p,
    fun p q hq => ?_, fun p p' q hq hq' => ?_⟩
  · rw [h.deltaDisk, h.deltaPool]; exact hok.unused
  · rw [h.deltaDisk]; exact hok.allocated p q (h.chain p ▸ hq)
  · exact hok.disjoint p p' q (h.chain p ▸ hq) (h.chain p' ▸ hq')

theorem SameChains.getRecord (l : DeltaLoc) : pm'.getRecord l = pm.getRecord l := by
  unfold PageMap.getRecord
  rw [h.deltaPool]

theorem SameChains.pageRecs (p : PageNo) : pm'.pageRecs p = pm.pageRecs p := by
  rw [pageRecs_eq, pageRecs_eq, h.chain, h.deltaPool]

theorem SameChains.trans (h' : pm'.SameChains pm'') : pm.SameChains pm'' :=
  ⟨fun p => (h'.chain p).trans (h.chain p), h'.deltaPool.trans h.deltaPool,
    h'.deltaDisk.trans h.deltaDisk⟩

end

variable (pm : PageMap)

theorem sameChains_makeForwarder (m : VId → Option PageNo) :
    pm.SameChains (pm.makeForwarder m).2 := ⟨fun _ => rfl, rfl, rfl⟩

theorem sameChains_noteReroutedTail (f : Nat) (v : VId) (tail : DeltaLoc) :
    pm.SameChains (pm.noteReroutedTail f v tail) := ⟨fun _ => rfl, rfl, rfl⟩

variable (p : PageNo)

theorem sameChains_installForwarderFor (f : Nat) : pm.SameChains (pm.installForwarderFor p f) := by
  refine ⟨fun q => ?_, rfl, rfl⟩
  by_cases hq : q = p
  · subst hq
    simp [installForwarderFor, chain, getOrCreateEntry]
  · simp [installForwarderFor, chain, getOrCreateEntry, hq]

theorem sameChains_detachForwarderFor : pm.SameChains (pm.detachForwarderFor p) := by
  unfold detachForwarderFor
  cases hi : pm.inner p with
  | none => exact ⟨fun _ => rfl, rfl, rfl⟩
  | some e =>
    refine ⟨fun q => ?_, rfl, rfl⟩
    by_cases hq : q = p
    · subst hq
      simp [chain, getOrCreateEntry, hi]
    · simp [chain, getOrCreateEntry, hq]

theorem acquireForwarderFor_install_self (f : Nat) :
    (pm.installForwarderFor p f).acquireForwarderFor p = some f := by
  simp [installForwarderFor, acquireForwarderFor]

theorem acquireForwarderFor_detach_self :
    (pm.detachForwarderFor p).acquireForwarderFor p = none := by
  unfold detachForwarderFor
  cases hi : pm.inner p <;> simp [acquireForwarderFor, hi]

variable {p}

theorem acquireForwarderFor_install_ne (f : Nat) (h : q ≠ p) :
    (pm.installForwarderFor p f).acquireForwarderFor q = pm.acquireForwarderFor q := by
  simp [installForwarderFor, acquireForwarderFor, h]

theorem acquireForwarderFor_detach_ne (h : q ≠ p) :
    (pm.detachForwarderFor p).acquireForwarderFor q = pm.acquireForwarderFor q := by
  unfold detachForwarderFor
  cases hi : pm.inner p <;> simp [acquireForwarderFor, h]

end PageMap

end BwGraph
