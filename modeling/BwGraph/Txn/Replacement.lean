import BwGraph.Txn.Smo
import BwGraph.Txn.Serial

/-
  What a consolidation of the transaction build does to the database. The invariant `SmoSys.Inv`
  ties the chains, the pending records, the CSR entries and the page numbers together; calls on
  edges (`Inv.call`), the recycling of pages (`Inv.recycle`) and completed consolidations
  (`Inv.consolidate`) keep it. A replaced vertex has its merged list and the deferred records, any
  other vertex what it had (`Replaced`).

  The runs considered merge insertions only into vertices that have an entry on their page
  (`Anchored`). A vertex that was giant when it was loaded has none; merging its insertions, or
  consolidating a page that is only left to such vertices, would build on the wrong base.
-/

namespace BwGraph

open List TxnSys DiskManager TxnDb

/-! ## Calls on edges -/

/-- The calls of a sequential history of edge transactions. -/
def TxnEvent.EdgeCall : TxnEvent → Prop
  | .load _ _ => False
  | .register _ => False
  | .write _ op => op.type = .insertEdge ∨ op.type = .deleteEdge
  | _ => True

/-- A timestamp that every live transaction sees, and every transaction that begins later. -/
def TxnSys.Settled (s : TxnSys) (ts : Nat) : Prop :=
  ts ≤ s.store.manager.currentTs ∧ ∀ i t, s.txns i = .live t → ts ≤ t.readTs

/-- The buffered writes are edge writes. -/
def TxnSys.EdgeTxns (s : TxnSys) : Prop := ∀ i t, s.txns i = .live t → EdgeOps t.writeOps

/-- What an edge call does: a transaction begins, changes, commits its writes or is destroyed. -/
inductive EdgeEffect (s s' : TxnSys) : Prop
  | began {i : Nat} {b : Bool} (eq : s' = s.construct i s.store.manager.currentTs b)
  | changed {i : Nat} {t t' : Txn} (h : s.txns i = .live t) (readTs : t'.readTs = t.readTs)
      (ops : EdgeOps t.writeOps → EdgeOps t'.writeOps) (eq : s' = s.set i (.live t'))
  | committed {i : Nat} {t : Txn} (h : s.txns i = .live t)
      (eq : s' = TxnSys.set ⟨t.storeAfter TxnManager.cleanupOldTxns s.store, s.txns⟩ i
        (.live t.afterCommit))
  | destroyed {i : Nat} {m : TxnManager} (clock : m.currentTs = s.store.manager.currentTs)
      (eq : s' = (s.setManager m).set i .destroyed)

section

variable {s s' : TxnSys}

theorem bufferWrite_edgeOps {t t' : Txn} {op : WriteOpt} (h : t.bufferWrite op = .ok t')
    (hop : op.type = .insertEdge ∨ op.type = .deleteEdge) (ht : EdgeOps t.writeOps) :
    EdgeOps t'.writeOps := by
  have hops : t'.writeOps = t.writeOps ++ [op] := by
    unfold Txn.bufferWrite at h
    split_ifs at h <;> cases h <;> rfl
  intro o ho
  rw [hops] at ho
  rcases mem_append.1 ho with ho | ho
  · exact ht o ho
  · rw [mem_singleton.1 ho]
    exact hop

theorem getNeighbors_writeOps {t t' : Txn} {db : TxnDb} {v : VId}
    (h : (t.getNeighbors db v).map Prod.snd = .ok t') : t'.writeOps = t.writeOps := by
  unfold Txn.getNeighbors at h
  split_ifs at h <;> cases h <;> rfl

theorem edgeEffect_of_step {e : TxnEvent} (he : e.EdgeCall) (h : TxnStep s e s') :
    EdgeEffect s s' := by
  unfold TxnStep at h
  cases e with
  | load i b => exact absurd he id
  | register i => exact absurd he id
  | begin i b =>
    simp only [step, begin] at h
    split at h
    · cases h
      exact .began rfl
    · cases h
  | getNeighbors i v =>
    obtain ⟨t, t', ht, hf, heq⟩ := onTxn_cases h
    exact .changed ht (getNeighbors_readTs hf)
      (fun ho => by rw [getNeighbors_writeOps hf]; exact ho) heq
  | write i op =>
    obtain ⟨t, t', ht, hf, heq⟩ := onTxn_cases h
    exact .changed ht (bufferWrite_readTs hf) (bufferWrite_edgeOps hf he) heq
  | abort i =>
    have h' : s.onTxn i (fun t => .ok t.abort) = some s' := h
    obtain ⟨t, t', ht, hf, heq⟩ := onTxn_cases h'
    refine .changed ht (abort_readTs hf) (fun ho => ?_) heq
    cases hf
    unfold Txn.abort
    split_ifs
    · exact ho
    · exact fun _ hm => absurd hm not_mem_nil
  | commit i =>
    simp only [step, commit] at h
    split at h
    · rename_i t ht
      split at h
      · rename_i ok t' st hc
        cases h
        obtain ⟨-, ⟨-, -, rfl, rfl⟩ | ⟨-, -, -, rfl, rfl⟩ | ⟨-, -, -, rfl, rfl⟩⟩ :=
          Txn.commitWith_cases hc
        · exact .changed ht (show ({ t with committed := true } : Txn).readTs = t.readTs from rfl)
            (fun ho => ho) rfl
        · exact .changed ht (show ({ t with committed := true } : Txn).readTs = t.readTs from rfl)
            (fun ho => ho) rfl
        · exact .committed ht rfl
      · cases h
    · cases h
  | destroy i =>
    simp only [step, destroy] at h
    split at h
    · rename_i t ht
      cases h
      have hclock : (s.store.manager.unregisterReader t.readTs).currentTs =
          s.store.manager.currentTs := rfl
      exact .destroyed hclock rfl
    · cases h

theorem live_set {i j : Nat} {x : TxnState} {t : Txn} (h : (s.set i x).txns j = .live t) :
    x = .live t ∨ s.txns j = .live t := by
  by_cases hj : j = i
  · subst hj
    rw [set_self] at h
    exact .inl h
  · rw [set_ne s x hj] at h
    exact .inr h

theorem storeAfter_currentTs (t : Txn) (st : TxnStore) :
    (t.storeAfter TxnManager.cleanupOldTxns st).manager.currentTs = st.manager.currentTs + 1 :=
  (cleansUp_cleanupOldTxns.recordCommit t _ _).2

/-- A settled timestamp stays settled. -/
theorem EdgeEffect.settled (h : EdgeEffect s s') {ts : Nat} (hts : s.Settled ts) :
    s'.Settled ts := by
  obtain ⟨hc, hl⟩ := hts
  cases h with
  | began heq =>
    subst heq
    refine ⟨hc, fun j t hj => ?_⟩
    rcases live_set hj with hx | hj
    · cases hx
      exact hc
    · exact hl j t hj
  | changed hi hr _ heq =>
    subst heq
    refine ⟨hc, fun j t hj => ?_⟩
    rcases live_set hj with hx | hj
    · cases hx
      exact hr ▸ hl _ _ hi
    · exact hl j t hj
  | @committed i t0 hi heq =>
    subst heq
    refine ⟨?_, fun j t hj => ?_⟩
    · exact (storeAfter_currentTs _ _).symm ▸ Nat.le_succ_of_le hc
    · rcases live_set hj with hx | hj
      · cases hx
        exact hl i t0 hi
      · exact hl j t hj
  | destroyed hclock heq =>
    subst heq
    refine ⟨hclock.symm ▸ hc, fun j t hj => ?_⟩
    rcases live_set hj with hx | hj
    · cases hx
    · exact hl j t hj

theorem EdgeEffect.edgeTxns (h : EdgeEffect s s') (ho : s.EdgeTxns) : s'.EdgeTxns := by
  cases h with
  | began heq =>
    subst heq
    intro j t hj
    rcases live_set hj with hx | hj
    · cases hx
      exact fun _ hm => absurd hm not_mem_nil
    · exact ho j t hj
  | changed hi _ hops heq =>
    subst heq
    intro j t hj
    rcases live_set hj with hx | hj
    · cases hx
      exact hops (ho _ _ hi)
    · exact ho j t hj
  | @committed i t0 hi heq =>
    subst heq
    intro j t hj
    rcases live_set hj with hx | hj
    · cases hx
      exact ho i t0 hi
    · exact ho j t hj
  | destroyed _ heq =>
    subst heq
    intro j t hj
    rcases live_set hj with hx | hj
    · cases hx
    · exact ho j t hj

/-- What is below the watermark is settled. -/
theorem settled_of_lt_watermark (h : Registered s) {ts : Nat}
    (hts : ts < s.store.manager.getWatermark) : s.Settled ts := by
  refine ⟨?_, fun i t hi => ?_⟩
  · rcases s.store.manager.getWatermark_cases with hpos | ⟨hclock, -⟩
    · obtain ⟨i, t, hi, ht⟩ := h.count_pos.1 hpos
      exact Nat.le_of_lt (Nat.lt_of_lt_of_le hts (ht ▸ h.liveLe i t hi))
    · exact hclock ▸ Nat.le_of_lt hts
  · exact Nat.le_of_lt (Nat.lt_of_lt_of_le hts
      (TxnManager.getWatermark_le (h.count_pos.2 ⟨i, t, hi, rfl⟩)))

end

/-! ## Appended records -/

namespace TxnDb

/-- Records appended one after another. -/
theorem foldl_appendRecord (recs : List TxnRecord) (db : TxnDb) :
    recs.foldl appendRecord db = { db with
      chain := fun v => (recs.filter fun rec => rec.first = v).reverse ++ db.chain v
      pending := fun q => db.pending q ++
        recs.filter fun rec => (db.items rec.first).pageNo = q } := by
  induction recs generalizing db with
  | nil => simp
  | cons rec recs ih =>
    rw [foldl_cons, ih]
    unfold appendRecord
    congr 1
    · funext v
      by_cases hv : rec.first = v
      · subst hv
        simp
      · have hv' : v ≠ rec.first := fun he => hv he.symm
        simp [hv, hv']
    · funext q
      by_cases hq : (db.items rec.first).pageNo = q
      · subst hq
        simp
      · have hq' : q ≠ (db.items rec.first).pageNo := fun he => hq he.symm
        simp [hq, hq']

theorem foldl_restoreDeferred {recs : List TxnRecord} (h : ∀ rec ∈ recs, rec.target = .edge)
    (db : TxnDb) : recs.foldl restoreDeferred db = recs.foldl appendRecord db := by
  induction recs generalizing db with
  | nil => rfl
  | cons rec recs ih =>
    rw [foldl_cons, foldl_cons, ih fun r hr => h r (mem_cons_of_mem _ hr)]
    unfold restoreDeferred
    rw [if_neg (by simp [h rec mem_cons_self])]

/-- Edge writes append records of existing vertices, with the timestamp of the commit. -/
theorem applyWrites_appends {ops : List WriteOpt} (hops : EdgeOps ops) (beginTs commitTs : Nat)
    (db : TxnDb) : ∃ recs : List TxnRecord, (db.applyWrites beginTs commitTs ops).2 =
      recs.foldl appendRecord db ∧
      ∀ rec ∈ recs, rec.target = .edge ∧ rec.commitTs = commitTs ∧ rec.first < db.size := by
  induction ops generalizing db with
  | nil => exact ⟨[], rfl, fun _ h => absurd h not_mem_nil⟩
  | cons op ops ih =>
    have hone : (db.applyWrite beginTs commitTs op).2 = db ∨
        ∃ rec : TxnRecord, (db.applyWrite beginTs commitTs op).2 = db.appendRecord rec ∧
          rec.target = .edge ∧ rec.commitTs = commitTs ∧ rec.first < db.size := by
      unfold applyWrite
      rcases hops op mem_cons_self with hop | hop
      · simp only [hop, insertEdgeTxn]
        split_ifs with hc
        · exact .inl rfl
        · exact .inr ⟨_, rfl, rfl, rfl, Nat.not_le.1 fun hle => hc (.inl hle)⟩
      · simp only [hop, deleteEdgeTxn]
        split_ifs with hc
        · exact .inl rfl
        · exact .inr ⟨_, rfl, rfl, rfl, Nat.not_le.1 fun hle => hc (.inl hle)⟩
    obtain ⟨recs, hrecs, hall⟩ := ih (fun o ho => hops o (mem_cons_of_mem _ ho))
      (db.applyWrite beginTs commitTs op).2
    have hfold : (db.applyWrites beginTs commitTs (op :: ops)).2 =
        ((db.applyWrite beginTs commitTs op).2.applyWrites beginTs commitTs ops).2 := rfl
    rw [hfold, hrecs]
    rcases hone with hdb | ⟨rec, hdb, hrec⟩
    · rw [hdb] at hall ⊢
      exact ⟨recs, rfl, hall⟩
    · rw [hdb] at hall ⊢
      refine ⟨rec :: recs, rfl, fun r hr => ?_⟩
      rcases mem_cons.1 hr with rfl | hr
      · exact hrec
      · exact hall r hr

end TxnDb

/-! ## The invariant -/

/-- The vertex has an entry at its location. -/
def TxnDb.Placed (db : TxnDb) (v : VId) : Prop :=
  ∃ e, (db.pages (db.items v).pageNo)[(db.items v).offset]? = some e ∧ e.IsOf v

/-- The records and pages fit together: what is pending on a page are the records of the vertices
located there, every vertex has an entry or is giant, and on a page with such an entry every entry
is that of a vertex located at it. `S` are the timestamps that every reader sees. -/
structure TxnDb.Laid (S : Nat → Prop) (db : TxnDb) : Prop where
  chain : ∀ v, ∀ rec ∈ db.chain v, rec.target = .edge ∧ rec.first = v ∧ rec.commitTs ≠ 0
  pending : ∀ p, ∀ rec ∈ db.pending p, rec.first < db.size ∧ (db.items rec.first).pageNo = p ∧
    rec ∈ db.chain rec.first
  chained : ∀ v < db.size, db.Placed v → ∀ rec ∈ db.chain v, rec ∈ db.pending (db.items v).pageNo
  vertex : ∀ v < db.size, db.Placed v ∨ (db.items v).vertexType = .giant
  entries : ∀ v < db.size, db.Placed v → ∀ i e, (db.pages (db.items v).pageNo)[i]? = some e →
    e.isDeleted = false ∧ e.vertexId < db.size ∧
    (db.items e.vertexId).pageNo = (db.items v).pageNo ∧ (db.items e.vertexId).offset = i ∧
    ∀ x ∈ e.edges, S x.2
  edgeTs : ∀ v d ts, db.edgeTs v d = some ts → S ts

theorem TxnDb.Laid.mono {S S' : Nat → Prop} {db : TxnDb} (h : db.Laid S) (hS : ∀ ts, S ts → S' ts) :
    db.Laid S' := by
  refine ⟨h.chain, h.pending, h.chained, h.vertex, fun v hv hp i e he => ?_, fun v d ts ht => ?_⟩
  · obtain ⟨h1, h2, h3, h4, h5⟩ := h.entries v hv hp i e he
    exact ⟨h1, h2, h3, h4, fun x hx => hS _ (h5 x hx)⟩
  · exact hS ts (h.edgeTs v d ts ht)

variable {recs : List TxnRecord}

theorem TxnDb.Laid.append {S : Nat → Prop} {db : TxnDb} (h : db.Laid S)
    (hr : ∀ rec ∈ recs, rec.target = .edge ∧ rec.commitTs ≠ 0 ∧ rec.first < db.size) :
    (recs.foldl appendRecord db).Laid S := by
  rw [foldl_appendRecord]
  refine ⟨fun v rec hrec => ?_, fun p rec hrec => ?_, fun v hv hp rec hrec => ?_, h.vertex,
    h.entries, h.edgeTs⟩
  · rcases mem_append.1 hrec with hrec | hrec
    · obtain ⟨hm, hf⟩ := mem_filter.1 (mem_reverse.1 hrec)
      exact ⟨(hr rec hm).1, by simpa using hf, (hr rec hm).2.1⟩
    · exact h.chain v rec hrec
  · rcases mem_append.1 hrec with hrec | hrec
    · obtain ⟨h1, h2, h3⟩ := h.pending p rec hrec
      exact ⟨h1, h2, mem_append_right _ h3⟩
    · obtain ⟨hm, hf⟩ := mem_filter.1 hrec
      refine ⟨(hr rec hm).2.2, by simpa using hf, mem_append_left _ ?_⟩
      exact mem_reverse.2 (mem_filter.2 ⟨hm, by simp⟩)
  · rcases mem_append.1 hrec with hrec | hrec
    · obtain ⟨hm, hf⟩ := mem_filter.1 (mem_reverse.1 hrec)
      have hf' : rec.first = v := by simpa using hf
      exact mem_append_right _ (mem_filter.2 ⟨hm, by simp [hf']⟩)
    · exact mem_append_left _ (h.chained v hv hp rec hrec)

/-- Pages in use are neither free nor retired, and retired pages are not free. -/
structure SmoSys.Filed (s : SmoSys) : Prop where
  free : s.disk.FreeOk
  used : ∀ v < s.db.size, s.db.Placed v → (s.db.items v).pageNo < s.disk.globalPageCount ∧
    (s.db.items v).pageNo ∉ s.disk.freePages ∧ (s.db.items v).pageNo ∉ s.retired
  nodup : s.retired.Nodup
  retired : ∀ q ∈ s.retired, q < s.disk.globalPageCount ∧ q ∉ s.disk.freePages

/-- Records do not matter to the files. -/
theorem SmoSys.Filed.append {s s' : SmoSys} (h : s.Filed) {p : PageNo}
    (hdb : s'.db = recs.foldl appendRecord s.db ∨
      s'.db = recs.foldl appendRecord (s.db.drain p)) (hd : s'.disk = s.disk)
    (hr : s'.retired = s.retired) : s'.Filed := by
  obtain ⟨h1, h2, h3, h4⟩ := h
  rw [foldl_appendRecord, foldl_appendRecord] at hdb
  refine ⟨hd ▸ h1, ?_, hr ▸ h3, ?_⟩
  · rw [hd, hr]
    rcases hdb with hdb | hdb
    · rw [hdb]
      exact h2
    · rw [hdb]
      exact h2
  · rw [hd, hr]
    exact h4

/-- What holds in every state. -/
structure SmoSys.Inv (s : SmoSys) : Prop where
  reg : Registered s.sys
  ops : s.sys.EdgeTxns
  laid : s.db.Laid s.sys.Settled
  filed : s.Filed

namespace SmoSys

variable {cfg : Config} {env : TxnSmoEnv} {p : PageNo} {s s' : SmoSys}

/-- An edge call appends records to the database, or leaves it alone. -/
theorem edgeEffect_db {s s' : TxnSys} (h : EdgeEffect s s') (ho : s.EdgeTxns) :
    ∃ recs : List TxnRecord, s'.store.db = recs.foldl appendRecord s.store.db ∧
      ∀ rec ∈ recs, rec.target = .edge ∧ rec.commitTs ≠ 0 ∧ rec.first < s.store.db.size := by
  have hnone : s'.store.db = s.store.db → ∃ recs : List TxnRecord,
      s'.store.db = recs.foldl appendRecord s.store.db ∧
      ∀ rec ∈ recs, rec.target = .edge ∧ rec.commitTs ≠ 0 ∧ rec.first < s.store.db.size :=
    fun he => ⟨[], he, fun _ hr => absurd hr not_mem_nil⟩
  cases h with
  | began heq => exact hnone (by rw [heq]; rfl)
  | changed _ _ _ heq => exact hnone (by rw [heq]; rfl)
  | destroyed _ heq => exact hnone (by rw [heq]; rfl)
  | @committed i t hi heq =>
    obtain ⟨recs, hrecs, hall⟩ := applyWrites_appends (ho i t hi) t.readTs
      s.store.manager.allocCommitTs.1 s.store.db
    refine ⟨recs, by rw [heq]; exact hrecs, fun rec hr => ?_⟩
    obtain ⟨h1, h2, h3⟩ := hall rec hr
    exact ⟨h1, by rw [h2]; exact Nat.succ_ne_zero _, h3⟩

theorem Inv.call (h : s.Inv) {e : TxnEvent} (he : e.EdgeCall) {sys : TxnSys}
    (hs : TxnStep s.sys e sys) : ({ s with sys := sys } : SmoSys).Inv := by
  have heff := edgeEffect_of_step he hs
  obtain ⟨recs, hdb, hrecs⟩ := edgeEffect_db heff h.ops
  refine ⟨h.reg.step cleansUp_cleanupOldTxns (step_effect hs), heff.edgeTxns h.ops, ?_, ?_⟩
  · show sys.store.db.Laid sys.Settled
    rw [hdb]
    exact (h.laid.mono fun ts => heff.settled).append hrecs
  · exact h.filed.append (p := 0) (.inl hdb) rfl rfl

theorem Inv.recycle (h : s.Inv) (hp : p ∈ s.retired) : (s.recycle p).Inv := by
  obtain ⟨h1, h2, h3, h4⟩ := h.filed
  refine ⟨h.reg, h.ops, h.laid, ⟨⟨?_, ?_, fun q hq => ?_⟩, fun v hv hpl => ?_, h3.erase p, ?_⟩⟩
  · exact (deletePage_pageSize _ _).symm ▸ h1.pageSize
  · exact nodup_freePages_deletePage h1.pageSize (h4 p hp).2 h1.nodup
  · show q < (s.disk.deletePage p).globalPageCount
    rw [deletePage_globalPageCount]
    rcases mem_freePages_deletePage h1.pageSize hq with rfl | hq
    · exact (h4 q hp).1
    · exact h1.lt q hq
  · obtain ⟨u1, u2, u3⟩ := h2 v hv hpl
    refine ⟨(deletePage_globalPageCount _ _).symm ▸ u1, fun hm => ?_,
      fun hm => u3 (mem_of_mem_erase hm)⟩
    rcases mem_freePages_deletePage h1.pageSize hm with he | hm
    · exact u3 (he ▸ hp)
    · exact u2 hm
  · intro q hq
    have hq' := mem_of_mem_erase hq
    refine ⟨(deletePage_globalPageCount _ _).symm ▸ (h4 q hq').1, fun hm => ?_⟩
    rcases mem_freePages_deletePage h1.pageSize hm with rfl | hm
    · exact h3.not_mem_erase hq
    · exact (h4 q hq').2 hm

/-! ## The replacement -/

/-- The page of some vertex with an entry; the vertices whose insertions are merged have theirs
there too. -/
def Anchored (p : PageNo) (s : SmoSys) : Prop :=
  (∃ v < s.db.size, s.db.Placed v ∧ (s.db.items v).pageNo = p) ∧
    ∀ rec ∈ s.mergeable p, rec.type = .insert → s.db.Placed rec.first

/-- The state after a published replacement, vertex by vertex. -/
structure Replaced (cfg : Config) (p : PageNo) (s s' : SmoSys) (placed : List (PageNo × List VId)) :
    Prop where
  pageNos : (placed.map Prod.fst).Nodup
  vertices : (placed.map Prod.snd).flatten.Nodup
  located : ∀ v, (locate placed v).isSome ↔ v ∈ (s.mergedGraph p).1
  deferred : ∀ rec ∈ s.deferred p, (locate placed rec.first).isSome
  size : s'.db.size = s.db.size
  edgeTs : s'.db.edgeTs = s.db.edgeTs
  items : ∀ v, s'.db.items v = match locate placed v with
    | none => s.db.items v
    | some (q, i) => { s.db.items v with
        pageNo := q
        offset := i
        vertexType := if v ∈ s.db.giantVertices cfg (s.mergedGraph p).1 then .giant else .normal }
  chain : ∀ v, s'.db.chain v = if (locate placed v).isSome then
    ((s.deferred p).filter fun rec => rec.first = v).reverse else s.db.chain v
  pending : ∀ q, s'.db.pending q = (if q = p then [] else s.db.pending q) ++
    (s.deferred p).filter (TxnDb.reroutedTo placed q)
  pages : s'.db.pages =
    writePages (newEntry cfg (s.mergedGraph p).1 (s.mergedGraph p).2) placed s.db.pages
  giants : ∀ v, s'.db.giants v = if v ∈ s.db.giantVertices cfg (s.mergedGraph p).1
    then some ((s.mergedGraph p).1.get v) else s.db.giants v

variable {rec : TxnRecord}

theorem edge_of_pending (h : s.db.Laid s.sys.Settled) (hr : rec ∈ s.db.pending p) :
    rec.target = .edge :=
  (h.chain _ _ (h.pending p rec hr).2.2).1

theorem mem_deferred : rec ∈ s.deferred p ↔ rec ∈ s.db.pending p ∧ ¬ rec.Mergeable s.watermark := by
  simp [SmoSys.deferred]

theorem mem_mergeable : rec ∈ s.mergeable p ↔ rec ∈ s.db.pending p ∧ rec.Mergeable s.watermark := by
  simp [SmoSys.mergeable]

theorem Replaces.replaced {vss : List (List VId)} {placed : List (PageNo × List VId)}
    (h : Replaces cfg p s s' vss placed) (hi : s.Inv) : Replaced cfg p s s' placed := by
  obtain ⟨copy, ha⟩ := h.alloc
  obtain ⟨db, rerouted, hr, hdb⟩ := h.db
  obtain ⟨a1, a2, -⟩ := allocatePages_ok hi.filed.free ha
  obtain ⟨r1, r2, r3, r4⟩ := foldlM_rerouteStray hr fun rec hrec =>
    edge_of_pending hi.laid (mem_deferred.1 hrec).1
  dsimp only at r2 r3 r4
  have hcount : ∀ v, rerouted v = ((s.deferred p).filter fun rec => rec.first = v).length := by
    intro v
    rw [(r3 v).2, Nat.zero_add]
  refine ⟨a2, ?_, fun v => ?_, r1, ?_, ?_, fun v => ?_, fun v => ?_, fun q => ?_, ?_, fun v => ?_⟩
  · rw [a1]
    exact h.perm.nodup_iff.2 (AList.keys_nodup _)
  · rw [locate_isSome, AList.mem_keys, ← h.perm.mem_iff, ← a1, mem_flatten]
    constructor
    · rintro ⟨x, hx, hv⟩
      exact ⟨x.2, mem_map.2 ⟨x, hx, rfl⟩, hv⟩
    · rintro ⟨vs, hvs, hv⟩
      obtain ⟨x, hx, rfl⟩ := mem_map.1 hvs
      exact ⟨x, hx, hv⟩
  · rw [hdb, r2]
    rfl
  · rw [hdb, r2]
    rfl
  · rw [hdb, r2]
    rfl
  · rw [hdb]
    simp only [finalize]
    cases hl : locate placed v with
    | none =>
      -- no record of such a vertex was rerouted
      have hnone : (s.deferred p).filter (fun rec => rec.first = v) = [] := by
        refine filter_eq_nil_iff.2 fun rec hrec hv => ?_
        have hs := r1 rec hrec
        rw [show rec.first = v by simpa using hv, hl] at hs
        cases hs
      rw [(r3 v).1, hnone]
      rfl
    | some x =>
      rw [(r3 v).1, hcount v, ← length_reverse]
      simp
  · rw [hdb]
    simp only [finalize]
    rw [r4 q]
    congr 1
    by_cases hq : q = p
    · subst hq
      rw [if_pos rfl]
      exact Function.update_self _ _ _
    · rw [if_neg hq]
      exact Function.update_of_ne hq _ _
  · rw [hdb, r2]
    rfl
  · rw [hdb, r2]
    rfl

/-- The merged vertices are those with an entry on the page. -/
theorem mem_mergedGraph (hi : s.Inv) (ha : Anchored p s) {v : VId} :
    v ∈ (s.mergedGraph p).1 ↔ v < s.db.size ∧ s.db.Placed v ∧ (s.db.items v).pageNo = p := by
  obtain ⟨⟨a, ha1, ha2, rfl⟩, hins⟩ := ha
  unfold mergedGraph
  rw [mem_buildMergedGraphWithTs]
  constructor
  · rintro (⟨e, he, hd, rfl⟩ | ⟨rec, hrec, -, hty, rfl⟩)
    · obtain ⟨i, hi'⟩ := mem_iff_getElem?.1 he
      obtain ⟨-, h2, h3, h4, -⟩ := hi.laid.entries a ha1 ha2 i e hi'
      exact ⟨h2, ⟨e, by rw [h3, h4]; exact hi', hd, rfl⟩, h3⟩
    · obtain ⟨h1, h2, -⟩ := hi.laid.pending _ rec (mem_mergeable.1 hrec).1
      exact ⟨h1, hins rec hrec hty, h2⟩
  · rintro ⟨-, ⟨e, he, hof⟩, hp⟩
    rw [hp] at he
    exact .inl ⟨e, mem_of_getElem? he, hof⟩

section

variable {placed : List (PageNo × List VId)}

/-- A replacement took pages that no vertex with an entry is on, and gives the old one back. -/
structure Moved (p : PageNo) (s s' : SmoSys) (placed : List (PageNo × List VId)) : Prop where
  txns : s'.sys.txns = s.sys.txns
  manager : s'.sys.store.manager = s.sys.store.manager
  retired : s'.retired = p :: s.retired
  free : s'.disk.FreeOk
  count : s.disk.globalPageCount ≤ s'.disk.globalPageCount
  freeOf : ∀ q ∈ s'.disk.freePages, q ∈ s.disk.freePages
  taken : ∀ q ∈ placed.map Prod.fst, q ∉ s'.disk.freePages ∧ q < s'.disk.globalPageCount ∧
    (q ∈ s.disk.freePages ∨ s.disk.globalPageCount ≤ q)

theorem Replaces.moved {vss : List (List VId)} (h : Replaces cfg p s s' vss placed) (hi : s.Inv) :
    Moved p s s' placed := by
  obtain ⟨copy, ha⟩ := h.alloc
  obtain ⟨-, -, a3, a4, a5, a6⟩ := allocatePages_ok hi.filed.free ha
  exact ⟨h.txns, h.manager, h.retired, a3, a4, a5, a6⟩

theorem Moved.settled (hm : Moved p s s' placed) : s'.sys.Settled = s.sys.Settled := by
  funext ts
  unfold TxnSys.Settled
  rw [hm.txns, hm.manager]

variable {v : VId} {q : PageNo}

/-- No vertex with an entry is on a new page. -/
theorem Moved.fresh (hm : Moved p s s' placed) (hi : s.Inv) (hv : v < s.db.size)
    (hp : s.db.Placed v) : (s.db.items v).pageNo ∉ placed.map Prod.fst := by
  intro hq
  obtain ⟨h1, h2, -⟩ := hi.filed.used v hv hp
  rcases (hm.taken _ hq).2.2 with h | h
  · exact h2 h
  · exact absurd h1 (Nat.not_lt.2 h)

section

variable (hr : Replaced cfg p s s' placed)
include hr

theorem Replaced.items_none (h : locate placed v = none) : s'.db.items v = s.db.items v := by
  rw [hr.items v, h]

variable {i : Nat}

section

variable (h : locate placed v = some (q, i))
include h

theorem Replaced.items_some : (s'.db.items v).pageNo = q ∧ (s'.db.items v).offset = i := by
  rw [hr.items v, h]
  exact ⟨rfl, rfl⟩

/-- The entry of a vertex on its new page. -/
theorem Replaced.entry :
    (s'.db.pages q)[i]? = some (newEntry cfg (s.mergedGraph p).1 (s.mergedGraph p).2 v) := by
  obtain ⟨vs, hvs, hi'⟩ := mem_of_locate h
  rw [hr.pages, writePages_of_mem hr.pageNos hvs, getElem?_map, hi']
  rfl

theorem Replaced.placed_some : s'.db.Placed v := by
  obtain ⟨h1, h2⟩ := hr.items_some h
  exact ⟨_, by rw [h1, h2]; exact hr.entry h, rfl, rfl⟩

end

/-- Every entry on a new page is the one of a vertex located there. -/
theorem Replaced.entry_cases {e : TxnEntry} (hq : q ∈ placed.map Prod.fst)
    (he : (s'.db.pages q)[i]? = some e) :
    e = newEntry cfg (s.mergedGraph p).1 (s.mergedGraph p).2 e.vertexId ∧
      locate placed e.vertexId = some (q, i) := by
  obtain ⟨⟨q', vs⟩, hx, rfl⟩ := mem_map.1 hq
  rw [hr.pages, writePages_of_mem hr.pageNos hx, getElem?_map] at he
  obtain ⟨w, hw, rfl⟩ := Option.map_eq_some_iff.1 he
  exact ⟨rfl, locate_of_mem hr.vertices hx hw⟩

/-- A vertex that was not replaced has an entry now exactly when it had one, on the same page. -/
theorem Replaced.placed_none (hm : Moved p s s' placed) (hi : s.Inv) (hv : v < s.db.size)
    (h : locate placed v = none) :
    (s'.db.Placed v ↔ s.db.Placed v) ∧ (s.db.Placed v →
      s'.db.pages (s.db.items v).pageNo = s.db.pages (s.db.items v).pageNo) := by
  have hsame : (s.db.items v).pageNo ∉ placed.map Prod.fst →
      s'.db.pages (s.db.items v).pageNo = s.db.pages (s.db.items v).pageNo := by
    intro hq
    rw [hr.pages]
    exact writePages_of_notMem hq
  refine ⟨?_, fun hp => hsame (hm.fresh hi hv hp)⟩
  unfold TxnDb.Placed
  rw [hr.items_none h]
  by_cases hq : (s.db.items v).pageNo ∈ placed.map Prod.fst
  · constructor
    · rintro ⟨e, he, -, hid⟩
      have hloc := (hr.entry_cases hq he).2
      rw [hid, h] at hloc
      cases hloc
    · exact fun hp => absurd hq (hm.fresh hi hv hp)
  · rw [hsame hq]

/-- A vertex that was replaced had its entry on the old page. -/
theorem Replaced.of_some (hi : s.Inv) (ha : Anchored p s) {x : PageNo × Nat}
    (h : locate placed v = some x) : v < s.db.size ∧ s.db.Placed v ∧ (s.db.items v).pageNo = p :=
  (mem_mergedGraph hi ha).1 ((hr.located v).1 (by rw [h]; rfl))

/-- A vertex with an entry that was not replaced is on another page. -/
theorem Replaced.of_none (hi : s.Inv) (ha : Anchored p s) (hv : v < s.db.size) (hp : s.db.Placed v)
    (h : locate placed v = none) : (s.db.items v).pageNo ≠ p := by
  intro he
  have hs := (hr.located v).2 ((mem_mergedGraph hi ha).2 ⟨hv, hp, he⟩)
  rw [h] at hs
  cases hs

end

/-- Every timestamp of the merged graph is settled. -/
theorem settled_mergedGraph (hi : s.Inv) (ha : Anchored p s) (v d : VId) :
    s.sys.Settled ((s.mergedGraph p).2 v d) := by
  obtain ⟨⟨a, ha1, ha2, rfl⟩, -⟩ := ha
  refine ts_buildMergedGraphWithTs ⟨Nat.zero_le _, fun _ _ _ => Nat.zero_le _⟩ ?_ ?_ v d
  · intro e he x hx
    obtain ⟨i, hi'⟩ := mem_iff_getElem?.1 he
    exact (hi.laid.entries a ha1 ha2 i e hi').2.2.2.2 x hx
  · intro rec hrec
    exact settled_of_lt_watermark hi.reg (mem_mergeable.1 hrec).2.2

theorem settled_newEntry (hi : s.Inv) (ha : Anchored p s) (v : VId) :
    ∀ x ∈ (newEntry cfg (s.mergedGraph p).1 (s.mergedGraph p).2 v).edges, s.sys.Settled x.2 := by
  intro x hx
  unfold newEntry at hx
  split_ifs at hx
  · cases hx
  · obtain ⟨d, -, rfl⟩ := mem_map.1 hx
    exact settled_mergedGraph hi ha v d

theorem mem_reroutedTo {rec : TxnRecord} :
    rec ∈ (s.deferred p).filter (reroutedTo placed q) ↔
      rec ∈ s.deferred p ∧ ∃ i, locate placed rec.first = some (q, i) := by
  rw [mem_filter]
  unfold reroutedTo
  simp

variable (hr : Replaced cfg p s s' placed) (hm : Moved p s s' placed) (hi : s.Inv)
  (ha : Anchored p s)
include hr hm hi ha

theorem Replaced.laid : s'.db.Laid s.sys.Settled := by
  have hl := hi.laid
  constructor
  · intro v rec hrec
    rw [hr.chain v] at hrec
    split_ifs at hrec
    · obtain ⟨hd, hv⟩ := mem_filter.1 (mem_reverse.1 hrec)
      have hv' : rec.first = v := by simpa using hv
      exact hv' ▸ hl.chain _ _ (hl.pending p rec (mem_deferred.1 hd).1).2.2
    · exact hl.chain v rec hrec
  · intro q rec hrec
    rw [hr.pending q, hr.size] at *
    rcases mem_append.1 hrec with hrec | hrec
    · split_ifs at hrec with hq
      · cases hrec
      · obtain ⟨h1, h2, h3⟩ := hl.pending q rec hrec
        have hnone : locate placed rec.first = none := by
          cases hloc : locate placed rec.first with
          | none => rfl
          | some x => exact absurd (h2 ▸ (hr.of_some hi ha hloc).2.2) hq
        rw [hr.items_none hnone, hr.chain, hnone]
        exact ⟨h1, h2, h3⟩
    · obtain ⟨hd, i, hloc⟩ := mem_reroutedTo.1 hrec
      obtain ⟨h1, -, -⟩ := hl.pending p rec (mem_deferred.1 hd).1
      refine ⟨h1, (hr.items_some hloc).1, ?_⟩
      rw [hr.chain, hloc]
      exact mem_reverse.2 (mem_filter.2 ⟨hd, by simp⟩)
  · intro v hv hp rec hrec
    rw [hr.size] at hv
    rw [hr.pending]
    rw [hr.chain v] at hrec
    cases hloc : locate placed v with
    | some x =>
      rw [hloc] at hrec
      obtain ⟨hd, hf⟩ := mem_filter.1 (mem_reverse.1 hrec)
      have hf' : rec.first = v := by simpa using hf
      refine mem_append_right _ (mem_reroutedTo.2 ⟨hd, x.2, ?_⟩)
      rw [hf', (hr.items_some hloc).1, hloc]
    | none =>
      rw [hloc] at hrec
      have hp' := (hr.placed_none hm hi hv hloc).1.1 hp
      rw [hr.items_none hloc, if_neg (hr.of_none hi ha hv hp' hloc)]
      exact mem_append_left _ (hl.chained v hv hp' rec hrec)
  · intro v hv
    rw [hr.size] at hv
    cases hloc : locate placed v with
    | some x => exact .inl (hr.placed_some hloc)
    | none =>
      rw [hr.items_none hloc]
      rcases hl.vertex v hv with hp | hg
      · exact .inl ((hr.placed_none hm hi hv hloc).1.2 hp)
      · exact .inr hg
  · intro v hv hp i e he
    rw [hr.size] at hv ⊢
    cases hloc : locate placed v with
    | some x =>
      rw [(hr.items_some hloc).1] at he ⊢
      obtain ⟨vs, hvs, -⟩ := mem_of_locate hloc
      obtain ⟨heq, hle⟩ := hr.entry_cases (mem_map.2 ⟨_, hvs, rfl⟩) he
      obtain ⟨h1, h2⟩ := hr.items_some hle
      refine ⟨by rw [heq]; rfl, (hr.of_some hi ha hle).1, h1, h2, ?_⟩
      rw [heq]
      exact settled_newEntry hi ha _
    | none =>
      obtain ⟨hiff, hpages⟩ := hr.placed_none hm hi hv hloc
      have hp' := hiff.1 hp
      rw [hr.items_none hloc] at he ⊢
      rw [hpages hp'] at he
      obtain ⟨h1, h2, h3, h4, h5⟩ := hl.entries v hv hp' i e he
      have hnone : locate placed e.vertexId = none := by
        cases hle : locate placed e.vertexId with
        | none => rfl
        | some x =>
          exact absurd (h3.symm.trans (hr.of_some hi ha hle).2.2) (hr.of_none hi ha hv hp' hloc)
      rw [hr.items_none hnone]
      exact ⟨h1, h2, h3, h4, h5⟩
  · rw [hr.edgeTs]
    exact hl.edgeTs

theorem Replaced.filed : s'.Filed := by
  obtain ⟨f1, f2, f3, f4⟩ := hi.filed
  obtain ⟨p1, p2, p3⟩ : p < s.disk.globalPageCount ∧ p ∉ s.disk.freePages ∧ p ∉ s.retired := by
    obtain ⟨⟨a, ha1, ha2, rfl⟩, -⟩ := ha
    exact f2 a ha1 ha2
  refine ⟨hm.free, fun v hv hp => ?_, ?_, fun q hq => ?_⟩
  · rw [hr.size] at hv
    rw [hm.retired, mem_cons, not_or]
    cases hloc : locate placed v with
    | some x =>
      rw [(hr.items_some hloc).1]
      obtain ⟨vs, hvs, -⟩ := mem_of_locate hloc
      obtain ⟨t1, t2, t3⟩ := hm.taken x.1 (mem_map.2 ⟨_, hvs, rfl⟩)
      refine ⟨t2, t1, fun he => ?_, fun hret => ?_⟩
      · rcases t3 with h | h
        · exact p2 (he ▸ h)
        · exact absurd (he ▸ h) (Nat.not_le.2 p1)
      · rcases t3 with h | h
        · exact (f4 _ hret).2 h
        · exact absurd h (Nat.not_le.2 (f4 _ hret).1)
    | none =>
      have hp' := (hr.placed_none hm hi hv hloc).1.1 hp
      rw [hr.items_none hloc]
      obtain ⟨u1, u2, u3⟩ := f2 v hv hp'
      exact ⟨Nat.lt_of_lt_of_le u1 hm.count, fun hq => u2 (hm.freeOf _ hq),
        hr.of_none hi ha hv hp' hloc, u3⟩
  · rw [hm.retired]
    exact nodup_cons.2 ⟨p3, f3⟩
  · rw [hm.retired] at hq
    rcases mem_cons.1 hq with rfl | hq
    · exact ⟨Nat.lt_of_lt_of_le p1 hm.count, fun h => p2 (hm.freeOf _ h)⟩
    · exact ⟨Nat.lt_of_lt_of_le (f4 q hq).1 hm.count, fun h => (f4 q hq).2 (hm.freeOf _ h)⟩

end

/-! ## Records that are put back -/

/-- Without anything to merge, the drained records are pending again, and once more in the
chains. -/
theorem restored_eq (hi : s.Inv) (hm : s.mergeable p = []) :
    (s.deferred p).foldl restoreDeferred (s.db.drain p) = { s.db with
      chain := fun v => ((s.db.pending p).filter fun rec => rec.first = v).reverse ++
        s.db.chain v } := by
  have hd : s.deferred p = s.db.pending p := by
    refine filter_eq_self.2 fun rec hrec => ?_
    have hnot : rec ∉ s.mergeable p := by rw [hm]; exact not_mem_nil
    simpa [mem_mergeable, hrec] using hnot
  rw [hd, foldl_restoreDeferred (fun rec hrec => edge_of_pending hi.laid hrec),
    foldl_appendRecord]
  unfold drain
  congr 1
  funext q
  dsimp only
  by_cases hq : q = p
  · subst hq
    rw [Function.update_self, nil_append]
    exact filter_eq_self.2 fun rec hrec => by simpa using (hi.laid.pending q rec hrec).2.1
  · have hnone : (s.db.pending p).filter (fun rec => (s.db.items rec.first).pageNo = q) = [] := by
      refine filter_eq_nil_iff.2 fun rec hrec he => hq ?_
      exact (by simpa using he : (s.db.items rec.first).pageNo = q).symm.trans
        (hi.laid.pending p rec hrec).2.1
    rw [Function.update_of_ne hq, hnone, append_nil]

/-- The chains have the same records as before. -/
theorem mem_restored (hi : s.Inv) {v : VId} :
    rec ∈ ((s.db.pending p).filter fun rec => rec.first = v).reverse ++ s.db.chain v ↔
      rec ∈ s.db.chain v := by
  rw [mem_append, mem_reverse, mem_filter]
  constructor
  · rintro (⟨h1, h2⟩ | h)
    · exact (by simpa using h2 : rec.first = v) ▸ (hi.laid.pending p rec h1).2.2
    · exact h
  · exact .inr

theorem Inv.restored (hi : s.Inv) (hm : s.mergeable p = []) :
    (s.setDb ((s.deferred p).foldl restoreDeferred (s.db.drain p))).Inv := by
  rw [restored_eq hi hm]
  have hl := hi.laid
  refine ⟨hi.reg.same (fun _ => rfl) rfl hi.reg.loadedLe (Nat.le_refl _), hi.ops, ?_, hi.filed.1,
    hi.filed.2, hi.filed.3, hi.filed.4⟩
  refine ⟨fun v rec hrec => hl.chain v rec ((mem_restored hi).1 hrec), fun q rec hrec => ?_,
    fun v hv hp rec hrec => hl.chained v hv hp rec ((mem_restored hi).1 hrec), hl.vertex,
    hl.entries, hl.edgeTs⟩
  obtain ⟨h1, h2, h3⟩ := hl.pending q rec hrec
  exact ⟨h1, h2, (mem_restored hi).2 h3⟩

/-- The guard on a consolidation that gets as far as merging. -/
def Sound (cfg : Config) (env : TxnSmoEnv) (p : PageNo) (s : SmoSys) : Prop :=
  Merges cfg env p s → Anchored p s

/-- What a completed call can be, under the guard. -/
theorem consolidated_cases (hi : s.Inv) (ha : Sound cfg env p s)
    (h : s.consolidatePagesTxn cfg env p = .ok s') :
    (¬ Merges cfg env p s ∧ (s' = s ∨ (s.mergeable p = [] ∧
      s' = s.setDb ((s.deferred p).foldl restoreDeferred (s.db.drain p))))) ∨
    (Merges cfg env p s ∧ Anchored p s ∧ ∃ placed, Replaced cfg p s s' placed ∧
      Moved p s s' placed) := by
  rcases consolidatePagesTxn_cases h with h | ⟨hm, hnil, -⟩ | ⟨hm, vss, placed, hr⟩
  · exact .inl h
  · -- the entry of the anchor is in the merged graph
    obtain ⟨v, hv, hp, hpage⟩ := (ha hm).1
    have hk := AList.mem_keys.1 ((mem_mergedGraph hi (ha hm)).2 ⟨hv, hp, hpage⟩)
    rw [hnil] at hk
    cases hk
  · exact .inr ⟨hm, ha hm, placed, hr.replaced hi, hr.moved hi⟩

theorem Inv.consolidate (hi : s.Inv) (ha : Sound cfg env p s)
    (h : s.consolidatePagesTxn cfg env p = .ok s') : s'.Inv := by
  rcases consolidated_cases hi ha h with ⟨-, rfl | ⟨hm, rfl⟩⟩ | ⟨-, hanc, placed, hr, hmv⟩
  · exact hi
  · exact hi.restored hm
  · refine ⟨?_, ?_, ?_, hr.filed hmv hi hanc⟩
    · refine hi.reg.same (fun i => by rw [hmv.txns]) (by rw [hmv.manager]) (fun i r b hj => ?_)
        (by rw [hmv.manager])
      rw [hmv.manager]
      exact hi.reg.loadedLe i r b (hmv.txns ▸ hj)
    · intro i t ht
      exact hi.ops i t (hmv.txns ▸ ht)
    · rw [hmv.settled]
      exact hr.laid hmv hi hanc

end SmoSys

end BwGraph
