import BwGraph.Buf.PageMap
import BwGraph.Lib.WriteBack

/-
  The delta flusher (`delta_flusher.cc`) next to the writers of delta pages. `insert_delta` runs
  under the latch of the page-map entry only, `flush_to_disk` under the latch of the page: it
  tests the dirty flag, writes the page image and clears the flag, and an insertion may fall
  between any two of these. The state holds every page of the delta pool, each a
  `WriteBack.Cell`; the image of a page is its records (the header counts them).

  In every run in which no insertion into a page falls between the write of its image and the
  clearing of its flag, a page that is clean and not being flushed is on disk as it is in memory,
  and a close that flushes the dirty pages leaves every acknowledged record on disk
  (`deltaPages_synced`). `insertDeltaAndGetLoc_steps` connects the steps with the page map.
-/

namespace BwGraph

open Function List PageMap

open WriteBack

/-- The pages of the delta pool with their images on disk. -/
abbrev DeltaCells := PageNo → Cell (List DeltaRecord)

/-- The events: a page taken for a chain, an insertion with the index of its record, and the steps
of a flusher on a page. -/
inductive FlushEvent where
  | reinit (p : PageNo)
  | insert (p : PageNo) (idx : Nat) (record : DeltaRecord)
  | flush (p : PageNo) (act : Act (List DeltaRecord))

/-- The actions of `flush_to_disk`. -/
def IsFlush : Act (List DeltaRecord) → Prop
  | .modify _ => False
  | _ => True

/-- One step. `reinit` marks a page dirty that holds no records; `insert_delta` returned true. -/
inductive FlushStep (cfg : Config) (s : DeltaCells) : FlushEvent → DeltaCells → Prop
  | reinit {p : PageNo} (hp : (s p).mem = []) {c : Cell (List DeltaRecord)}
      (h : (s p).step (.modify []) = some c) : FlushStep cfg s (.reinit p) (Function.update s p c)
  | insert {p : PageNo} {record : DeltaRecord} {page : DeltaPage} {status : DeltaPageStatus}
      (hins : DeltaPage.insertDelta cfg ⟨(s p).mem, status⟩ record = some page)
      {c : Cell (List DeltaRecord)} (h : (s p).step (.modify page.records) = some c) :
      FlushStep cfg s (.insert p (s p).mem.length record) (Function.update s p c)
  | flush {p : PageNo} {act : Act (List DeltaRecord)} (ha : IsFlush act)
      {c : Cell (List DeltaRecord)} (h : (s p).step act = some c) :
      FlushStep cfg s (.flush p act) (Function.update s p c)

/-- No page is modified between the write of its image and the clearing of its flag. -/
def FlushTimely (s : DeltaCells) : FlushEvent → Prop
  | .reinit p => (s p).phase ≠ .written
  | .insert p _ _ => (s p).phase ≠ .written
  | .flush _ _ => True

/-! ## Runs -/

/-- Every page is synced, and every acknowledged record is where it was put. -/
structure FlushInv (es : List FlushEvent) (s : DeltaCells) : Prop where
  synced : ∀ p, (s p).Synced
  acked : ∀ p idx record, FlushEvent.insert p idx record ∈ es → (s p).mem[idx]? = some record

theorem FlushInv.step {cfg : Config} {s s' : DeltaCells} {es : List FlushEvent} {e : FlushEvent}
    (h : FlushInv es s) (ht : FlushTimely s e) (hs : FlushStep cfg s e s') :
    FlushInv (es ++ [e]) s' := by
  have hsynced : ∀ {p : PageNo} {act : Act (List DeltaRecord)} {c : Cell (List DeltaRecord)},
      (s p).step act = some c → (s p).Timely act → ∀ q, (update s p c q).Synced := by
    intro p act c hc ht' q
    by_cases hq : q = p
    · subst hq
      rw [update_self]
      exact (h.synced q).step ht' hc
    · rw [update_of_ne hq]
      exact h.synced q
  have hkept : ∀ {p : PageNo} {c : Cell (List DeltaRecord)},
      (∀ (idx : Nat) (record : DeltaRecord), (s p).mem[idx]? = some record →
        c.mem[idx]? = some record) →
      ∀ q idx record, FlushEvent.insert q idx record ∈ es →
        (update s p c q).mem[idx]? = some record := by
    intro p c hc q idx record hmem
    by_cases hq : q = p
    · subst hq
      rw [update_self]
      exact hc idx record (h.acked q idx record hmem)
    · rw [update_of_ne hq]
      exact h.acked q idx record hmem
  cases hs with
  | @reinit p hp c hc =>
    refine ⟨hsynced hc ht, fun q idx record hmem => ?_⟩
    rcases List.mem_append.1 hmem with hmem | hmem
    · refine hkept (fun i r hr => ?_) q idx record hmem
      rw [hp] at hr
      simp at hr
    · simp at hmem
  | @insert p record page status hins c hc =>
    have hrecs : c.mem = (s p).mem ++ [record] := by
      obtain rfl := Option.some.inj hc
      exact DeltaPage.insertDelta_records hins
    refine ⟨hsynced hc ht, fun q idx r hmem => ?_⟩
    rcases List.mem_append.1 hmem with hmem | hmem
    · refine hkept (fun i x hx => ?_) q idx r hmem
      rw [hrecs, List.getElem?_append_left (List.getElem?_eq_some_iff.1 hx).1]
      exact hx
    · obtain ⟨rfl, rfl, rfl⟩ := FlushEvent.insert.inj (List.mem_singleton.1 hmem)
      rw [update_self, hrecs]
      simp
  | @flush p act ha c hc =>
    have htimely : (s p).Timely act := by
      cases act with
      | modify x => exact ha.elim
      | latch | test | write | clear | unlatch => trivial
    refine ⟨hsynced hc htimely, fun q idx record hmem => ?_⟩
    rcases List.mem_append.1 hmem with hmem | hmem
    · refine hkept (fun i r hr => ?_) q idx record hmem
      rw [Cell.step_mem hc fun x hx => by rw [hx] at ha; exact ha]
      exact hr
    · simp at hmem

/-- In every run whose insertions keep out of the window between write and clearing, a clean page
that no flusher holds is on disk as it is in memory, and a close that flushes every dirty page
leaves every acknowledged record on disk. -/
theorem deltaPages_synced {cfg : Config} {s0 s : DeltaCells} (h0 : ∀ p, (s0 p).Synced)
    {es : List FlushEvent} (run : Steps (guarded FlushTimely (FlushStep cfg)) s0 es s) :
    (∀ p, (s p).dirty = false → (s p).phase = .idle → (s p).disk = (s p).mem) ∧
      ∀ p idx record, FlushEvent.insert p idx record ∈ es →
        (s p).closed[idx]? = some record := by
  have hinv : FlushInv es s := run.inv FlushInv ⟨h0, fun p idx record hmem => by cases hmem⟩
    fun es _ e _ h hstep => h.step hstep.1 hstep.2
  refine ⟨fun p hd _ => hinv.synced p (.inl hd), fun p idx record hmem => ?_⟩
  rw [(hinv.synced p).closed]
  exact hinv.acked p idx record hmem

/-- Settings with delta pages of 120 bytes, which hold three records. -/
def flushConfig : Config := ⟨0, 120, 0, 0, 0, 0, false⟩

/-- An inserted edge. -/
def flushRecord (dst : VId) : DeltaRecord := ⟨.edge, .insert, 0, dst, 0, none⟩

/-- A delta pool and its file, empty except for page 0. -/
def cellsAt (c : Cell (List DeltaRecord)) : DeltaCells :=
  Function.update (fun _ => ⟨[], [], false, .idle⟩) 0 c

theorem cellsAt_zero (c : Cell (List DeltaRecord)) : cellsAt c 0 = c := update_self _ _ _

theorem update_cellsAt (c c' : Cell (List DeltaRecord)) :
    update (cellsAt c) 0 c' = cellsAt c' := update_idem _ _ _

theorem cellsAt_synced {c : Cell (List DeltaRecord)} (h : c.Synced) (p : PageNo) :
    (cellsAt c p).Synced := by
  by_cases hp : p = 0
  · rw [hp, cellsAt_zero]
    exact h
  · rw [cellsAt, update_of_ne hp]
    exact fun _ => rfl

theorem flushStep_at {c c' : Cell (List DeltaRecord)} {act : Act (List DeltaRecord)}
    (ha : IsFlush act) (h : c.step act = some c') :
    FlushStep flushConfig (cellsAt c) (.flush 0 act) (cellsAt c') := by
  rw [← update_cellsAt c c']
  exact .flush ha (by rw [cellsAt_zero]; exact h)

theorem insertStep_at {mem disk : List DeltaRecord} {dirty : Bool} {phase : Phase} (dst : VId)
    (hlen : mem.length < 3) :
    FlushStep flushConfig (cellsAt ⟨mem, disk, dirty, phase⟩)
      (.insert 0 mem.length (flushRecord dst))
      (cellsAt ⟨mem ++ [flushRecord dst], disk, true, phase⟩) := by
  have hins : DeltaPage.insertDelta flushConfig ⟨mem, .accumulate⟩ (flushRecord dst) =
      some ⟨mem ++ [flushRecord dst], .accumulate⟩ := by
    unfold DeltaPage.insertDelta DeltaPage.usedBytes deltaHeaderBytes deltaRecordBytes
    rw [if_neg]
    show ¬ 24 + mem.length * 32 + 32 > 120
    omega
  have hstep := FlushStep.insert (s := cellsAt ⟨mem, disk, dirty, phase⟩) (p := 0)
    (by rw [cellsAt_zero]; exact hins) (by rw [cellsAt_zero]; rfl)
  rwa [cellsAt_zero, update_cellsAt] at hstep

/-- One insertion, then a flusher that has seen the dirty flag. -/
theorem flushRun_tested : Steps (guarded FlushTimely (FlushStep flushConfig))
    (cellsAt ⟨[], [], false, .idle⟩)
    ([] ++ [.insert 0 0 (flushRecord 1)] ++ [.flush 0 .latch] ++ [.flush 0 .test])
    (cellsAt ⟨[flushRecord 1], [], true, .dirtySeen⟩) := by
  have hinsert : FlushStep flushConfig (cellsAt ⟨[], [], false, .idle⟩)
      (.insert 0 0 (flushRecord 1)) (cellsAt ⟨[flushRecord 1], [], true, .idle⟩) :=
    insertStep_at 1 (by decide)
  have hlatch : FlushStep flushConfig (cellsAt ⟨[flushRecord 1], [], true, .idle⟩)
      (.flush 0 .latch) (cellsAt ⟨[flushRecord 1], [], true, .latched⟩) :=
    flushStep_at trivial rfl
  have htest : FlushStep flushConfig (cellsAt ⟨[flushRecord 1], [], true, .latched⟩)
      (.flush 0 .test) (cellsAt ⟨[flushRecord 1], [], true, .dirtySeen⟩) :=
    flushStep_at trivial rfl
  exact .snoc (.snoc (.snoc .nil ⟨nofun, hinsert⟩) ⟨trivial, hlatch⟩) ⟨trivial, htest⟩

/-- A second insertion before the write is on disk after the flush. -/
theorem deltaPages_synced_flushed : ∃ es s,
    Steps (guarded FlushTimely (FlushStep flushConfig)) (cellsAt ⟨[], [], false, .idle⟩) es s ∧
    FlushEvent.insert 0 1 (flushRecord 2) ∈ es ∧ (s 0).disk = (s 0).mem ∧
    (s 0).closed[1]? = some (flushRecord 2) := by
  have hinsert : guarded FlushTimely (FlushStep flushConfig)
      (cellsAt ⟨[flushRecord 1], [], true, .dirtySeen⟩) (.insert 0 1 (flushRecord 2))
      (cellsAt ⟨[flushRecord 1, flushRecord 2], [], true, .dirtySeen⟩) :=
    ⟨nofun, insertStep_at 2 (by decide)⟩
  have hwrite : guarded FlushTimely (FlushStep flushConfig)
      (cellsAt ⟨[flushRecord 1, flushRecord 2], [], true, .dirtySeen⟩) (.flush 0 .write)
      (cellsAt ⟨[flushRecord 1, flushRecord 2], [flushRecord 1, flushRecord 2], true, .written⟩) :=
    ⟨trivial, flushStep_at trivial rfl⟩
  have hclear : guarded FlushTimely (FlushStep flushConfig)
      (cellsAt ⟨[flushRecord 1, flushRecord 2], [flushRecord 1, flushRecord 2], true, .written⟩)
      (.flush 0 .clear)
      (cellsAt ⟨[flushRecord 1, flushRecord 2], [flushRecord 1, flushRecord 2], false, .cleared⟩) :=
    ⟨trivial, flushStep_at trivial rfl⟩
  have hunlatch : guarded FlushTimely (FlushStep flushConfig)
      (cellsAt ⟨[flushRecord 1, flushRecord 2], [flushRecord 1, flushRecord 2], false, .cleared⟩)
      (.flush 0 .unlatch)
      (cellsAt ⟨[flushRecord 1, flushRecord 2], [flushRecord 1, flushRecord 2], false, .idle⟩) :=
    ⟨trivial, flushStep_at trivial rfl⟩
  have run := (((flushRun_tested.snoc hinsert).snoc hwrite).snoc hclear).snoc hunlatch
  obtain ⟨hsync, hack⟩ := deltaPages_synced (cellsAt_synced fun _ => rfl) run
  have hmem := List.mem_append_left [FlushEvent.flush 0 .unlatch]
    (List.mem_append_left [.flush 0 .clear] (List.mem_append_left [.flush 0 .write]
      (List.mem_append_right ([] ++ [.insert 0 0 (flushRecord 1)] ++ [.flush 0 .latch] ++
        [.flush 0 .test]) (List.mem_singleton_self (FlushEvent.insert 0 1 (flushRecord 2))))))
  exact ⟨_, _, run, hmem, hsync 0 rfl rfl, hack 0 1 _ hmem⟩

/-- An insertion between the write of the image and the clearing of the flag is not on disk when
the page is clean, nor after a close. -/
theorem deltaPages_lost_insert : ¬ ∀ (cfg : Config) (s0 s : DeltaCells) (es : List FlushEvent),
    (∀ p, (s0 p).Synced) → Steps (FlushStep cfg) s0 es s →
    (∀ p, (s p).dirty = false → (s p).phase = .idle → (s p).disk = (s p).mem) ∧
      ∀ p idx record, FlushEvent.insert p idx record ∈ es →
        (s p).closed[idx]? = some record := by
  intro h
  have hwrite : FlushStep flushConfig (cellsAt ⟨[flushRecord 1], [], true, .dirtySeen⟩)
      (.flush 0 .write) (cellsAt ⟨[flushRecord 1], [flushRecord 1], true, .written⟩) :=
    flushStep_at trivial rfl
  have hinsert : FlushStep flushConfig
      (cellsAt ⟨[flushRecord 1], [flushRecord 1], true, .written⟩) (.insert 0 1 (flushRecord 2))
      (cellsAt ⟨[flushRecord 1, flushRecord 2], [flushRecord 1], true, .written⟩) :=
    insertStep_at 2 (by decide)
  have hclear : FlushStep flushConfig
      (cellsAt ⟨[flushRecord 1, flushRecord 2], [flushRecord 1], true, .written⟩) (.flush 0 .clear)
      (cellsAt ⟨[flushRecord 1, flushRecord 2], [flushRecord 1], false, .cleared⟩) :=
    flushStep_at trivial rfl
  have hunlatch : FlushStep flushConfig
      (cellsAt ⟨[flushRecord 1, flushRecord 2], [flushRecord 1], false, .cleared⟩)
      (.flush 0 .unlatch)
      (cellsAt ⟨[flushRecord 1, flushRecord 2], [flushRecord 1], false, .idle⟩) :=
    flushStep_at trivial rfl
  have htested := flushRun_tested.mono fun _ _ _ hs => hs.2
  obtain ⟨hsync, -⟩ := h flushConfig _ _ _ (cellsAt_synced fun _ => rfl)
    ((((htested.snoc hwrite).snoc hinsert).snoc hclear).snoc hunlatch)
  have hdisk := hsync 0 rfl rfl
  rw [cellsAt_zero] at hdisk
  cases hdisk

/-! ## The page map writes through these steps -/

/-- The memory images are the pages of the map's delta pool. -/
def DeltaCells.Holds (s : DeltaCells) (pm : PageMap) : Prop :=
  ∀ q, (s q).mem = (pm.deltaPool q).records

variable {cfg : Config} {s : DeltaCells} {pm pm' : PageMap} {p : PageNo} {record : DeltaRecord}

theorem step_pushDeltaPage (cfg : Config) (h : s.Holds pm) (hok : pm.Ok) (p : PageNo) :
    ∃ s', FlushStep cfg s (.reinit (pm.pushDeltaPage p).1) s' ∧
      DeltaCells.Holds s' (pm.pushDeltaPage p).2 := by
  have hpush := pushes_pushDeltaPage hok p
  have hrecs : ∀ q, ((pm.pushDeltaPage p).2.deltaPool q).records = (pm.deltaPool q).records :=
    fun q => ext_getElem? fun i => hpush.get ⟨q, i⟩
  have hempty : (s (pm.pushDeltaPage p).1).mem = [] := by rw [h, ← hrecs, hpush.empty]
  refine ⟨_, .reinit hempty rfl, fun q => ?_⟩
  rw [hrecs]
  by_cases hq : q = (pm.pushDeltaPage p).1
  · subst hq
    rw [update_self, ← hrecs, hpush.empty]
  · rw [update_of_ne hq, h]

theorem step_setDeltaPage (h : s.Holds pm) {q : PageNo} {page : DeltaPage}
    (hins : (pm.deltaPool q).insertDelta cfg record = some page) :
    ∃ s', FlushStep cfg s (.insert q (pm.deltaPool q).records.length record) s' ∧
      DeltaCells.Holds s' (pm.setDeltaPage q page) := by
  have hstep : FlushStep cfg s (.insert q (s q).mem.length record) (update s q
      { s q with mem := page.records, dirty := true }) := by
    refine .insert (?_ : DeltaPage.insertDelta cfg ⟨_, (pm.deltaPool q).status⟩ _ = some page) rfl
    rw [h]
    exact hins
  rw [h] at hstep
  refine ⟨_, hstep, fun q' => ?_⟩
  by_cases hq : q' = q
  · subst hq
    simp [setDeltaPage]
  · simp only [setDeltaPage, update_of_ne hq]
    exact h q'

variable {loc : DeltaLoc}

theorem steps_insertAtHead (h : s.Holds pm) (hok : pm.Ok) {q : PageNo}
    (hins : insertAtHead cfg p record q pm = .ok loc pm') :
    ∃ es s', Steps (FlushStep cfg) s es s' ∧ DeltaCells.Holds s' pm' ∧
      FlushEvent.insert loc.pageNo loc.recordIdx record ∈ es := by
  unfold insertAtHead at hins
  split at hins
  · rename_i page hpage
    cases hins
    obtain ⟨s', hs, hholds⟩ := step_setDeltaPage h hpage
    exact ⟨_, s', .snoc .nil hs, hholds, mem_singleton.2 rfl⟩
  · have hpush := pushes_pushDeltaPage hok p
    obtain ⟨s1, hs1, h1⟩ := step_pushDeltaPage cfg h hok p
    simp only at hins
    split at hins
    · rename_i page hpage
      cases hins
      obtain ⟨s', hs, hholds⟩ := step_setDeltaPage h1 hpage
      rw [hpush.empty] at hs
      exact ⟨_, s', .snoc (.snoc .nil hs1) hs, hholds,
        mem_append_right _ (mem_singleton.2 rfl)⟩
    · cases hins

/-- `insert_delta_and_get_loc` takes such steps, the last of which acknowledges its record. -/
theorem steps_insertDeltaAndGetLoc (h : s.Holds pm) (hok : pm.Ok)
    (hins : insertDeltaAndGetLoc cfg p record pm = .ok loc pm') :
    ∃ es s', Steps (FlushStep cfg) s es s' ∧ DeltaCells.Holds s' pm' ∧
      FlushEvent.insert loc.pageNo loc.recordIdx record ∈ es := by
  unfold insertDeltaAndGetLoc at hins
  cases hc : pm.chain p with
  | cons head rest =>
    have hh : pm.headDeltaPage p = (head, pm) := by
      unfold headDeltaPage
      rw [show (pm.getOrCreateEntry p).deltaPages = head :: rest from hc]
    rw [hh] at hins
    exact steps_insertAtHead h hok hins
  | nil =>
    have hh : pm.headDeltaPage p = pm.pushDeltaPage p := by
      unfold headDeltaPage
      rw [show (pm.getOrCreateEntry p).deltaPages = [] from hc]
    rw [hh] at hins
    obtain ⟨s1, hs1, h1⟩ := step_pushDeltaPage cfg h hok p
    obtain ⟨es, s', hs, hholds, hmem⟩ :=
      steps_insertAtHead h1 (pushes_pushDeltaPage hok p).ok hins
    exact ⟨_, s', .cons hs1 hs, hholds, mem_cons_of_mem _ hmem⟩

end BwGraph
