import BwGraph.Buf.PageMap

/-
  Runs of calls on the page map (`page_map.cc`): `insert_delta` with a list of records,
  `insert_delta_and_get_loc` with one, and `fetch_deltas_with_mark`, on any entries in any order.

  Records go to the end of the head page while full head pages get a new page in front of them, so
  the fetch, which walks from the newest page and turns only the pages around, has the records in
  the order they came (`pageRecs`). The run theorem `fetchDeltasWithMark_pending`: after any calls
  a fetch returns what was inserted since the last fetch of that entry, and leaves the entry
  empty. The loop of `insert_delta` retries a record on a fresh page for ever when not even an
  empty page has room for one; otherwise every call returns.
-/

namespace BwGraph

namespace PageMap

/-- The loop of `insert_delta`; `fuel` bounds the rounds. -/
def insertDeltaLoop (cfg : Config) (pageNo : PageNo) :
    Nat → PageNo → List DeltaRecord → PageMap → Option PageMap
  | 0, _, _, _ => none
  | _ + 1, _, [], pm => some pm
  | fuel + 1, head, record :: records, pm =>
    match (pm.deltaPool head).insertDelta cfg record with
    | some page => insertDeltaLoop cfg pageNo fuel head records (pm.setDeltaPage head page)
    | none =>
      let (newPage, pm) := pm.pushDeltaPage pageNo
      insertDeltaLoop cfg pageNo fuel newPage (record :: records) pm

/-- `insert_delta`; `none` when the loop has not ended within `fuel` rounds. -/
def insertDelta (cfg : Config) (fuel : Nat) (pageNo : PageNo) (records : List DeltaRecord)
    (pm : PageMap) : Option PageMap :=
  let (head, pm) := pm.headDeltaPage pageNo
  insertDeltaLoop cfg pageNo fuel head records pm

/-! ## What the calls do -/

/-- What appending `records` to the chain of `p` does. -/
structure AppendsAll (pm pm' : PageMap) (p : PageNo) (records : List DeltaRecord) : Prop where
  ok : pm'.Ok
  recs_self : pm'.pageRecs p = pm.pageRecs p ++ records
  recs_ne : ∀ q, q ≠ p → pm'.pageRecs q = pm.pageRecs q

variable {pm pm' pm'' : PageMap} {cfg : Config} {p q : PageNo} {record : DeltaRecord}
  {records : List DeltaRecord}

theorem Appends.appendsAll {loc : DeltaLoc} (h : pm.Appends pm' p record loc) :
    pm.AppendsAll pm' p [record] := ⟨h.ok, h.recs_self, h.recs_ne⟩

theorem Pushes.appendsAll (h : pm.Pushes pm' p q) : pm.AppendsAll pm' p [] :=
  ⟨h.ok, by rw [h.recs, List.append_nil], fun q' _ => h.recs q'⟩

theorem AppendsAll.trans {records' : List DeltaRecord} (h : pm.AppendsAll pm' p records)
    (h' : pm'.AppendsAll pm'' p records') : pm.AppendsAll pm'' p (records ++ records') := by
  refine ⟨h'.ok, ?_, fun q hq => (h'.recs_ne q hq).trans (h.recs_ne q hq)⟩
  rw [h'.recs_self, h.recs_self, List.append_assoc]

/-- The head of the chain, with the page it may have taken. -/
theorem headDeltaPage_spec (h : pm.Ok) (p : PageNo) :
    pm.AppendsAll (pm.headDeltaPage p).2 p [] ∧
      ∃ rest, (pm.headDeltaPage p).2.chain p = (pm.headDeltaPage p).1 :: rest := by
  unfold headDeltaPage
  cases hc : (pm.getOrCreateEntry p).deltaPages with
  | cons head rest => exact ⟨⟨h, (List.append_nil _).symm, fun _ _ => rfl⟩, rest, hc⟩
  | nil =>
    have hpush := pushes_pushDeltaPage h p
    exact ⟨hpush.appendsAll, _, hpush.head⟩

variable {fuel : Nat} {rest : List PageNo}

/-- The loop, when it ends, has appended its records. -/
theorem appendsAll_insertDeltaLoop {head : PageNo} (h : pm.Ok) (hc : pm.chain p = head :: rest)
    (hrun : insertDeltaLoop cfg p fuel head records pm = some pm') :
    pm.AppendsAll pm' p records := by
  induction fuel generalizing pm head rest records with
  | zero => cases hrun
  | succ fuel ih =>
    cases records with
    | nil =>
      cases hrun
      exact ⟨h, (List.append_nil _).symm, fun _ _ => rfl⟩
    | cons record records =>
      unfold insertDeltaLoop at hrun
      cases hins : (pm.deltaPool head).insertDelta cfg record with
      | some page =>
        rw [hins] at hrun
        have happ := appends_setDeltaPage h hc (DeltaPage.insertDelta_records hins)
        -- the chain is still the same list of pages
        exact happ.appendsAll.trans (ih happ.ok (show _ = head :: rest from hc) hrun)
      | none =>
        rw [hins] at hrun
        have hpush := pushes_pushDeltaPage h p
        exact hpush.appendsAll.trans (ih hpush.ok hpush.head hrun)

theorem appendsAll_insertDelta (h : pm.Ok) (hrun : insertDelta cfg fuel p records pm = some pm') :
    pm.AppendsAll pm' p records := by
  obtain ⟨happ, rest, hc⟩ := headDeltaPage_spec h p
  exact happ.trans (appendsAll_insertDeltaLoop happ.ok hc hrun)

/-! ## The calls return -/

/-- An empty delta page has room for a record. -/
def FitsRecord (cfg : Config) : Prop := deltaHeaderBytes + deltaRecordBytes ≤ cfg.deltaPageSize

section

variable (hfit : FitsRecord cfg)
include hfit

theorem insertDelta_of_empty {page : DeltaPage} (hempty : page.records = []) (record : DeltaRecord) :
    ∃ page', page.insertDelta cfg record = some page' := by
  unfold FitsRecord at hfit
  unfold DeltaPage.insertDelta
  rw [if_neg]
  · exact ⟨_, rfl⟩
  · unfold DeltaPage.usedBytes
    rw [hempty, List.length_nil]
    omega

/-- Two rounds a record are enough: a record that finds the head page full fits on the next. -/
theorem insertDeltaLoop_returns {head : PageNo} (h : pm.Ok) (hc : pm.chain p = head :: rest)
    (hfuel : 2 * records.length < fuel) :
    ∃ pm', insertDeltaLoop cfg p fuel head records pm = some pm' := by
  induction records generalizing pm head rest fuel with
  | nil =>
    obtain ⟨fuel, rfl⟩ : ∃ k, fuel = k + 1 := ⟨fuel - 1, by omega⟩
    exact ⟨pm, rfl⟩
  | cons record records ih =>
    rw [List.length_cons] at hfuel
    obtain ⟨fuel, rfl⟩ : ∃ k, fuel = k + 2 := ⟨fuel - 2, by omega⟩
    unfold insertDeltaLoop
    cases hins : (pm.deltaPool head).insertDelta cfg record with
    | some page =>
      have happ := appends_setDeltaPage h hc (DeltaPage.insertDelta_records hins)
      exact ih happ.ok (show _ = head :: rest from hc) (by omega)
    | none =>
      have hpush := pushes_pushDeltaPage h p
      obtain ⟨page, hpage⟩ := insertDelta_of_empty hfit hpush.empty record
      have happ := appends_setDeltaPage hpush.ok hpush.head (DeltaPage.insertDelta_records hpage)
      simp only
      unfold insertDeltaLoop
      rw [hpage]
      exact ih happ.ok (show _ = _ :: pm.chain p from hpush.head) (by omega)

theorem insertDelta_returns (h : pm.Ok) (p : PageNo) (records : List DeltaRecord) :
    ∃ fuel pm', insertDelta cfg fuel p records pm = some pm' := by
  obtain ⟨happ, rest, hc⟩ := headDeltaPage_spec h p
  exact ⟨_, insertDeltaLoop_returns hfit happ.ok hc (Nat.lt_succ_self _)⟩

theorem insertDeltaAndGetLoc_returns (h : pm.Ok) (p : PageNo) (record : DeltaRecord) :
    ∃ loc pm', insertDeltaAndGetLoc cfg p record pm = .ok loc pm' := by
  obtain ⟨happ, -⟩ := headDeltaPage_spec h p
  unfold insertDeltaAndGetLoc insertAtHead
  simp only
  split
  · exact ⟨_, _, rfl⟩
  · have hpush := pushes_pushDeltaPage happ.ok p
    obtain ⟨page, hpage⟩ := insertDelta_of_empty hfit hpush.empty record
    rw [hpage]
    exact ⟨_, _, rfl⟩

end

/-! ## Runs -/

/-- A call on the page map, with what a fetch returned. -/
inductive Call where
  | insertDelta (pageNo : PageNo) (records : List DeltaRecord)
  | insertDeltaAndGetLoc (pageNo : PageNo) (record : DeltaRecord)
  | fetchDeltasWithMark (pageNo : PageNo) (fetched : List DeltaRecord)

/-- A call that returns. -/
inductive Returns (cfg : Config) (pm : PageMap) : Call → PageMap → Prop
  | insertDelta {pageNo : PageNo} {records : List DeltaRecord} {fuel : Nat} {pm' : PageMap}
      (h : pm.insertDelta cfg fuel pageNo records = some pm') :
      Returns cfg pm (.insertDelta pageNo records) pm'
  | insertDeltaAndGetLoc {pageNo : PageNo} {record : DeltaRecord} {loc : DeltaLoc} {pm' : PageMap}
      (h : insertDeltaAndGetLoc cfg pageNo record pm = .ok loc pm') :
      Returns cfg pm (.insertDeltaAndGetLoc pageNo record) pm'
  | fetchDeltasWithMark (pageNo : PageNo) :
      Returns cfg pm (.fetchDeltasWithMark pageNo (pm.fetchDeltasWithMark pageNo).1)
        (pm.fetchDeltasWithMark pageNo).2

/-- One call's effect on the records that wait at `p`. -/
def pendingStep (p : PageNo) (waiting : List DeltaRecord) : Call → List DeltaRecord
  | .insertDelta q records => if q = p then waiting ++ records else waiting
  | .insertDeltaAndGetLoc q record => if q = p then waiting ++ [record] else waiting
  | .fetchDeltasWithMark q _ => if q = p then [] else waiting

/-- What was inserted at `p` since the last fetch of `p`, in the order of the calls. -/
def pending (p : PageNo) (calls : List Call) : List DeltaRecord := calls.foldl (pendingStep p) []

theorem pending_snoc (p : PageNo) (calls : List Call) (c : Call) :
    pending p (calls ++ [c]) = pendingStep p (pending p calls) c := by
  rw [pending, List.foldl_append]
  rfl

theorem AppendsAll.pageRecs (h : pm.AppendsAll pm' q records) (p : PageNo) :
    pm'.pageRecs p = if q = p then pm.pageRecs p ++ records else pm.pageRecs p := by
  split_ifs with hq
  · subst hq
    exact h.recs_self
  · exact h.recs_ne p (Ne.symm hq)

/-- One call keeps the map in order and moves the waiting records of every entry. -/
theorem Returns.step {c : Call} (h : pm.Returns cfg c pm') (hok : pm.Ok) :
    pm'.Ok ∧ ∀ p, pm'.pageRecs p = pendingStep p (pm.pageRecs p) c := by
  cases h with
  | insertDelta h =>
    have happ := appendsAll_insertDelta hok h
    exact ⟨happ.ok, happ.pageRecs⟩
  | insertDeltaAndGetLoc h =>
    have happ := (appends_insertDeltaAndGetLoc hok h).appendsAll
    exact ⟨happ.ok, happ.pageRecs⟩
  | fetchDeltasWithMark q =>
    have hd := drains_fetchDeltasWithMark hok q
    refine ⟨hd.ok, fun p => ?_⟩
    by_cases hq : q = p
    · subst hq
      rw [hd.recs_self, pendingStep, if_pos rfl]
    · rw [hd.recs_ne p (Ne.symm hq), pendingStep, if_neg hq]

/-- After a run, every entry holds what waits at it. -/
theorem Returns.run {pm0 : PageMap} {calls : List Call} (h0 : pm0.Ok)
    (hempty : ∀ p, pm0.pageRecs p = []) (run : Steps (Returns cfg) pm0 calls pm) :
    pm.Ok ∧ ∀ p, pm.pageRecs p = pending p calls := by
  refine Steps.inv (fun calls pm => pm.Ok ∧ ∀ p, pm.pageRecs p = pending p calls)
    ⟨h0, hempty⟩ (fun calls pm1 c pm2 hi hc => ?_) run
  obtain ⟨hok, hrecs⟩ := hc.step hi.1
  refine ⟨hok, fun p => ?_⟩
  rw [hrecs, hi.2, pending_snoc]

/-- After any calls on a new page map a fetch returns exactly what was inserted at its entry since
the last fetch there, in order; the entry is left with an empty chain and count 0, and nothing else
changes for the other entries. Every call returns if an empty delta page has room for a record. -/
theorem fetchDeltasWithMark_pending {pageSize capacity : Nat} {calls : List Call}
    (hps : 0 < pageSize) (run : Steps (Returns cfg) (create pageSize capacity) calls pm) :
    (∀ p, (pm.fetchDeltasWithMark p).1 = pending p calls ∧
      (pm.fetchDeltasWithMark p).2.chain p = [] ∧
      (pm.fetchDeltasWithMark p).2.getDeltaChainLength p = 0 ∧
      ∀ q, q ≠ p → (pm.fetchDeltasWithMark p).2.pageRecs q = pending q calls) ∧
    (FitsRecord cfg →
      (∀ p records, ∃ pm', pm.Returns cfg (.insertDelta p records) pm') ∧
      ∀ p record, ∃ pm', pm.Returns cfg (.insertDeltaAndGetLoc p record) pm') := by
  obtain ⟨hok, hrecs⟩ := Returns.run (create_ok hps capacity) (fun _ => rfl) run
  refine ⟨fun p => ⟨?_, ?_, ?_, fun q hq => ?_⟩, fun hfit => ⟨fun p records => ?_,
    fun p record => ?_⟩⟩
  · rw [fetchDeltasWithMark_fst, hrecs]
  · rw [chain_fetchDeltasWithMark, if_pos rfl]
  · exact (drains_fetchDeltasWithMark hok p).length
  · rw [(drains_fetchDeltasWithMark hok p).recs_ne q hq, hrecs]
  · obtain ⟨fuel, pm', h⟩ := insertDelta_returns hfit hok p records
    exact ⟨pm', .insertDelta h⟩
  · obtain ⟨loc, pm', h⟩ := insertDeltaAndGetLoc_returns hfit hok p record
    exact ⟨pm', .insertDeltaAndGetLoc h⟩

/-- A record as the witness inserts it. -/
def edgeRecord (type : DeltaType) (first second : VId) : DeltaRecord :=
  ⟨.edge, type, first, second, 0, none⟩

/-- Pages with room for two records. -/
def twoRecordConfig : Config := ⟨128, 88, 2, 100, 4, 0, false⟩

/-- Three records over two delta pages, one of them a deletion of the first. -/
theorem fetchDeltasWithMark_pending_three :
    ∃ pm : PageMap, Steps (Returns twoRecordConfig) (create 88 0)
        [.insertDelta 7 [edgeRecord .insert 1 5, edgeRecord .insert 1 6],
          .insertDeltaAndGetLoc 7 (edgeRecord .delete 1 5)] pm ∧
      pm.getDeltaChainLength 7 = 2 ∧
      (pm.fetchDeltasWithMark 7).1 =
        [edgeRecord .insert 1 5, edgeRecord .insert 1 6, edgeRecord .delete 1 5] := by
  obtain ⟨pm1, h1⟩ : ∃ pm1, insertDelta twoRecordConfig 5 7
      [edgeRecord .insert 1 5, edgeRecord .insert 1 6] (create 88 0) = some pm1 := ⟨_, rfl⟩
  obtain ⟨loc, pm2, h2⟩ : ∃ loc pm2, insertDeltaAndGetLoc twoRecordConfig 7
      (edgeRecord .delete 1 5) pm1 = .ok loc pm2 := by
    cases h1
    exact ⟨_, _, rfl⟩
  have run : Steps (Returns twoRecordConfig) (create 88 0)
      [.insertDelta 7 [edgeRecord .insert 1 5, edgeRecord .insert 1 6],
        .insertDeltaAndGetLoc 7 (edgeRecord .delete 1 5)] pm2 :=
    .cons (.insertDelta h1) (.cons (.insertDeltaAndGetLoc h2) .nil)
  refine ⟨pm2, run, ?_, ((fetchDeltasWithMark_pending (by decide) run).1 7).1⟩
  cases h1
  cases h2
  rfl

end PageMap

end BwGraph
