import Mathlib.Algebra.BigOperators.Group.List.Basic
import BwGraph.Lib.CountingSort
import BwGraph.Algo.Scan

/-
  The edge scans over a bitmap of active vertices (`edge_scan.h`): the loop of `bw_edge_scan` over
  the words, and `bw_page_local_edge_scan`, which `bw_edge_scan` calls instead when the pool cannot
  hold all pages. The page-local scan gathers the active vertices by page, with a counting sort, and
  reads each page once. A scan here is the list of the edges that `process` is called for; its
  result is their sum, in any grouping.

  The gathering skips vertices on pages from `get_page_count` on. So the two scans have the same
  edges exactly when no active vertex with neighbours is on such a page (`pageLocalScan_iff`).
-/

namespace BwGraph

open Function List Nat

/-! ## The bitmap -/

/-- `num_words`, in 32-bit arithmetic. -/
def numWords (n : Nat) : Nat := (n + 63) % 2 ^ 32 / 64

/-- `word_idx * 64 + bit`, of type `v_id_t`. -/
def bitVertex (wordIdx bit : Nat) : VId := (wordIdx * 64 + bit) % 2 ^ 32

/-- The loop over the bits of a word: it leaves the word at the first set bit past the vertices. -/
def wordVertices (n wordIdx : Nat) (word : UInt64) : List Nat → List VId
  | [] => []
  | bit :: bits =>
    if word.toNat.testBit bit then
      if bitVertex wordIdx bit ≥ n then []
      else bitVertex wordIdx bit :: wordVertices n wordIdx word bits
    else wordVertices n wordIdx word bits

/-- `__builtin_ctzll` of a word that is not zero. -/
def ctz (word : UInt64) : Nat := ((List.range 64).find? fun bit => word.toNat.testBit bit).getD 64

/-- The loop `while (word != 0)`, which takes off the lowest bit; it has at most 64 turns. -/
def drainWord (n wordIdx : Nat) : Nat → UInt64 → List VId
  | 0, _ => []
  | turns + 1, word =>
    if word = 0 then []
    else if bitVertex wordIdx (ctz word) ≥ n then []
    else bitVertex wordIdx (ctz word) :: drainWord n wordIdx turns (word &&& (word - 1))

/-! ## The scans -/

/-- The edges of a vertex as `read_neighbor` returns them. -/
def Db.readEdges (cfg : Config) (db : Db) (src : VId) : List (VId × VId) :=
  (db.base cfg src).map fun dst => (src, dst)

/-- The word-by-word branch of `bw_edge_scan`. -/
def wordEdgeScan (cfg : Config) (db : Db) (data : Nat → UInt64) : List (VId × VId) :=
  (List.range (numWords db.getVertexCount)).flatMap fun wordIdx =>
    if data wordIdx = 0 then []
    else (wordVertices db.getVertexCount wordIdx (data wordIdx) (List.range 64)).flatMap
      (db.readEdges cfg)

/-- `active_vertex_t`. -/
structure ActiveVertex where
  pageNo : PageNo
  offset : Nat
  src : VId
  vertexType : VertexType

/-- `active_vertices`, `active_pages`, `page_counts` and `page_seen`. -/
structure ActiveSet where
  activeVertices : List ActiveVertex
  activePages : List PageNo
  pageCounts : PageNo → Nat
  pageSeen : PageNo → Bool

/-- What is noted of an active vertex. -/
def Db.activeVertex (db : Db) (src : VId) : ActiveVertex :=
  ⟨(db.location src).1, (db.location src).2, src, (db.vertexIndex.items src).vertexType⟩

/-- One turn of the gathering loop. -/
def gatherVertex (db : Db) (st : ActiveSet) (src : VId) : ActiveSet :=
  let pageNo := (db.location src).1
  if pageNo < db.csrPool.diskManager.validPageCount then
    { activeVertices := st.activeVertices ++ [db.activeVertex src]
      activePages := if st.pageSeen pageNo then st.activePages else st.activePages ++ [pageNo]
      pageCounts := Function.update st.pageCounts pageNo (st.pageCounts pageNo + 1)
      pageSeen := Function.update st.pageSeen pageNo true }
  else st

/-- The active vertices of the page-local scan, in the order of its loops. -/
def drainedVertices (n : Nat) (data : Nat → UInt64) : List VId :=
  (List.range (numWords n)).flatMap fun wordIdx => drainWord n wordIdx 64 (data wordIdx)

/-- The list of a gathered vertex, read from its page or the giant store. -/
def Db.itemNeighbors (cfg : Config) (db : Db) (item : ActiveVertex) : List VId :=
  if item.vertexType = .giant then db.giantDb.readNeighborClone item.src
  else (db.csrPool.page item.pageNo).readNeighbors cfg item.offset

/-- The edges of a gathered vertex. -/
def Db.itemEdges (cfg : Config) (db : Db) (item : ActiveVertex) : List (VId × VId) :=
  (db.itemNeighbors cfg item).map fun dst => (item.src, dst)

/-- `bw_page_local_edge_scan`; `stale` is what earlier calls have left in `grouped_vertices`. -/
def pageLocalEdgeScan (cfg : Config) (db : Db) (data : Nat → UInt64) (stale : Nat → ActiveVertex) :
    List (VId × VId) :=
  let st := (drainedVertices db.getVertexCount data).foldl (gatherVertex db)
    ⟨[], [], fun _ => 0, fun _ => false⟩
  if st.activeVertices.isEmpty then []
  else
    let activePages := st.activePages.insertionSort (· ≤ ·)
    let grouped := (st.activeVertices.foldl (CountingSort.place ActiveVertex.pageNo)
      (CountingSort.offset st.pageCounts, stale)).2
    activePages.flatMap fun pageNo =>
      (CountingSort.group st.pageCounts grouped pageNo).flatMap (db.itemEdges cfg)

/-! ## The two loops over a word -/

variable {n wordIdx : Nat}

/-- Bits that are not looked at do not matter. -/
theorem wordVertices_congr {word word' : UInt64} {bits : List Nat}
    (h : ∀ b ∈ bits, word'.toNat.testBit b = word.toNat.testBit b) :
    wordVertices n wordIdx word' bits = wordVertices n wordIdx word bits := by
  induction bits with
  | nil => rfl
  | cons b bits ih =>
    unfold wordVertices
    rw [h b mem_cons_self, ih fun c hc => h c (mem_cons_of_mem _ hc)]

/-- Taking off the lowest bit. -/
theorem testBit_land_pred {w k : Nat} (hlow : ∀ i, i < k → w.testBit i = false)
    (hk : w.testBit k = true) (i : Nat) :
    (w &&& (w - 1)).testBit i = (w.testBit i && decide (i ≠ k)) := by
  have hmod : w % 2 ^ k = 0 := by
    refine eq_of_testBit_eq fun i => ?_
    rw [testBit_mod_two_pow, zero_testBit]
    by_cases hi : i < k
    · simp [hlow i hi]
    · simp [hi]
  have hw : w = 2 ^ k * (w / 2 ^ k) := by
    have := div_add_mod w (2 ^ k)
    omega
  obtain ⟨q, hq⟩ : ∃ q, q = w / 2 ^ k := ⟨_, rfl⟩
  rw [← hq] at hw
  have hodd : q % 2 = 1 := by
    have hbit : q.testBit 0 = true := by
      rw [hq, testBit_div_two_pow, Nat.zero_add]
      exact hk
    simpa [testBit_zero] using hbit
  have hpred : w - 1 = 2 ^ k * (q - 1) + (2 ^ k - 1) := by
    have hmul : 2 ^ k * q = 2 ^ k * (q - 1) + 2 ^ k := by
      rw [← mul_succ]
      congr 1
      omega
    omega
  have hsub : 2 ^ k - 1 < 2 ^ k := sub_lt (Nat.two_pow_pos k) Nat.one_pos
  rw [testBit_and, hpred, testBit_two_pow_mul_add _ hsub]
  by_cases hi : i < k
  · simp [hlow i hi]
  · rw [if_neg hi]
    have hwi : w.testBit i = q.testBit (i - k) := by
      rw [hq, testBit_div_two_pow]
      congr 1
      omega
    rw [hwi]
    rcases Nat.eq_or_lt_of_le (not_lt.1 hi) with rfl | hgt
    · rw [Nat.sub_self, testBit_zero]
      have : (q - 1) % 2 = 0 := by omega
      simp [testBit_zero, this]
    · obtain ⟨j, hj⟩ : ∃ j, i - k = j + 1 := ⟨i - k - 1, by omega⟩
      have hhalf : (q - 1) / 2 = q / 2 := by omega
      rw [hj, testBit_succ, testBit_succ, hhalf]
      simp [show i ≠ k by omega]

variable {word : UInt64}

theorem ctz_eq {k : Nat} (hk64 : k < 64) (hlow : ∀ i, i < k → word.toNat.testBit i = false)
    (hk : word.toNat.testBit k = true) : ctz word = k := by
  have hfind : (range 64).find? (fun bit => word.toNat.testBit bit) = some k := by
    rw [find?_range_eq_some]
    exact ⟨hk, mem_range.2 hk64, fun j hj => by simp [hlow j hj]⟩
  unfold ctz
  rw [hfind]
  rfl

theorem toNat_land_pred (h : word ≠ 0) :
    (word &&& (word - 1)).toNat = word.toNat &&& (word.toNat - 1) := by
  have hpos : 1 ≤ word := by
    rw [UInt64.le_iff_toNat_le]
    exact Nat.pos_of_ne_zero fun h0 => h (UInt64.toNat_inj.1 h0)
  rw [UInt64.toNat_and, UInt64.toNat_sub_of_le _ _ hpos]
  rfl

/-- Both loops come to the same vertices; the bits below `k` are off already. -/
theorem drainWord_eq (n wordIdx d : Nat) {k turns : Nat} (hd : k + d = 64) (hturns : d ≤ turns)
    (hlow : ∀ i, i < k → word.toNat.testBit i = false) :
    drainWord n wordIdx turns word = wordVertices n wordIdx word (range' k d) := by
  induction d generalizing k turns word with
  | zero =>
    obtain rfl : k = 64 := hd
    have hzero : word = 0 := by
      refine UInt64.toNat_inj.1 (eq_of_testBit_eq fun i => ?_)
      rw [UInt64.toNat_zero, zero_testBit]
      by_cases hi : i < 64
      · exact hlow i hi
      · refine testBit_lt_two_pow (lt_of_lt_of_le word.toNat_lt ?_)
        exact Nat.pow_le_pow_right (by decide) (not_lt.1 hi)
    cases turns with
    | zero => rfl
    | succ turns => exact if_pos hzero
  | succ d ih =>
    rw [range'_succ]
    by_cases hk : word.toNat.testBit k = true
    · obtain ⟨turns, rfl⟩ : ∃ t, turns = t + 1 := ⟨turns - 1, by omega⟩
      have hne : word ≠ 0 := by
        rintro rfl
        simp at hk
      have hbits : ∀ i, (word &&& (word - 1)).toNat.testBit i =
          (word.toNat.testBit i && decide (i ≠ k)) := by
        intro i
        rw [toNat_land_pred hne]
        exact testBit_land_pred hlow hk i
      have hrest : drainWord n wordIdx turns (word &&& (word - 1)) =
          wordVertices n wordIdx word (range' (k + 1) d) := by
        rw [ih (k := k + 1) (by omega) (by omega) fun i hi => ?_]
        · refine wordVertices_congr fun b hb => ?_
          rw [mem_range'_1] at hb
          rw [hbits, decide_eq_true (by omega), Bool.and_true]
        · rw [hbits]
          rcases Nat.lt_succ_iff_lt_or_eq.1 hi with hlt | rfl
          · rw [hlow i hlt, Bool.false_and]
          · simp
      unfold drainWord wordVertices
      rw [if_neg hne, if_pos hk, ctz_eq (by omega) hlow hk, hrest]
    · unfold wordVertices
      rw [if_neg hk]
      refine ih (by omega) (by omega) fun i hi => ?_
      rcases Nat.lt_succ_iff_lt_or_eq.1 hi with hlt | rfl
      · exact hlow i hlt
      · simpa using hk

theorem wordVertices_zero (n wordIdx : Nat) (bits : List Nat) :
    wordVertices n wordIdx 0 bits = [] := by
  induction bits with
  | nil => rfl
  | cons b bits ih =>
    unfold wordVertices
    rw [if_neg (by simp), ih]

/-- The scan over the words reads the vertices that the page-local scan gathers. -/
theorem wordEdgeScan_eq (cfg : Config) (db : Db) (data : Nat → UInt64) :
    wordEdgeScan cfg db data =
      (drainedVertices db.getVertexCount data).flatMap (db.readEdges cfg) := by
  unfold wordEdgeScan drainedVertices
  rw [flatMap_assoc]
  refine flatMap_congr fun wordIdx _ => ?_
  rw [drainWord_eq db.getVertexCount wordIdx 64 (k := 0) rfl le_rfl
    fun i hi => absurd hi (Nat.not_lt_zero i)]
  split_ifs with hzero
  · rw [hzero, wordVertices_zero]
    rfl
  · rw [range_eq_range']

/-! ## The gathered vertices -/

/-- The vertices on pages below `get_page_count`. -/
def Db.counted (db : Db) (vs : List VId) : List VId :=
  vs.filter fun v => (db.location v).1 < db.csrPool.diskManager.validPageCount

/-- What the gathering loop has noted of the vertices `vs`. -/
structure Gathered (db : Db) (vs : List VId) (st : ActiveSet) : Prop where
  activeVertices : st.activeVertices = (db.counted vs).map db.activeVertex
  nodup : st.activePages.Nodup
  activePages : ∀ p, p ∈ st.activePages ↔ st.pageSeen p = true
  pageSeen : ∀ p, st.pageSeen p = true ↔ ∃ a ∈ st.activeVertices, a.pageNo = p
  pageCounts : ∀ p, st.pageCounts p =
    (CountingSort.withKey ActiveVertex.pageNo st.activeVertices p).length

/-- One more item with its page noted. -/
theorem Gathered.snoc {db : Db} {vs : List VId} {st : ActiveSet} (h : Gathered db vs st) {v : VId}
    (hlt : (db.location v).1 < db.csrPool.diskManager.validPageCount) {pages : List PageNo}
    (hnd : pages.Nodup) (hpages : ∀ p, p ∈ pages ↔ p = (db.location v).1 ∨ p ∈ st.activePages) :
    Gathered db (vs ++ [v])
      { activeVertices := st.activeVertices ++ [db.activeVertex v]
        activePages := pages
        pageCounts := update st.pageCounts (db.location v).1
          (st.pageCounts (db.location v).1 + 1)
        pageSeen := update st.pageSeen (db.location v).1 true } := by
  have hseen : ∀ p, update st.pageSeen (db.location v).1 true p = true ↔
      p = (db.location v).1 ∨ st.pageSeen p = true := by
    intro p
    by_cases hp : p = (db.location v).1
    · simp [hp]
    · simp [hp]
  refine ⟨?_, hnd, fun p => ?_, fun p => ?_, fun p => ?_⟩
  · show st.activeVertices ++ [db.activeVertex v] = _
    rw [Db.counted, filter_append, filter_cons_of_pos (by simpa using hlt),
      map_append, ← Db.counted, ← h.activeVertices]
    rfl
  · rw [hseen, hpages, h.activePages]
  · rw [hseen, h.pageSeen]
    simp only [mem_append, mem_singleton, or_and_right, exists_or, exists_eq_left]
    rw [or_comm, eq_comm]
    rfl
  · show update st.pageCounts (db.location v).1 (st.pageCounts (db.location v).1 + 1) p =
      (CountingSort.withKey ActiveVertex.pageNo (st.activeVertices ++ [db.activeVertex v]) p).length
    by_cases hp : p = (db.activeVertex v).pageNo
    · rw [hp, CountingSort.withKey_append_self, length_append, ← h.pageCounts]
      exact update_self _ _ _
    · rw [CountingSort.withKey_append_ne _ (Ne.symm hp), ← h.pageCounts]
      exact update_of_ne hp _ _

theorem Gathered.step {db : Db} {vs : List VId} {st : ActiveSet} (h : Gathered db vs st) (v : VId) :
    Gathered db (vs ++ [v]) (gatherVertex db st v) := by
  unfold gatherVertex
  dsimp only
  split_ifs with hlt hseen
  · refine h.snoc hlt h.nodup fun p => ⟨.inr, fun hp => ?_⟩
    rcases hp with rfl | hp
    · exact (h.activePages _).2 hseen
    · exact hp
  · have hnot : (db.location v).1 ∉ st.activePages := fun hmem => hseen ((h.activePages _).1 hmem)
    refine h.snoc hlt (h.nodup.append (nodup_singleton _) ?_) fun p => ?_
    · simpa using hnot
    · rw [mem_append, mem_singleton, or_comm]
  · refine ⟨?_, h.nodup, h.activePages, h.pageSeen, h.pageCounts⟩
    rw [h.activeVertices, Db.counted, Db.counted, filter_append,
      filter_cons_of_neg (by simpa using hlt)]
    simp

theorem gathered_foldl (db : Db) (vs : List VId) :
    Gathered db vs (vs.foldl (gatherVertex db) ⟨[], [], fun _ => 0, fun _ => false⟩) := by
  induction vs using reverseRecOn with
  | nil => exact ⟨rfl, nodup_nil, by simp, by simp, fun _ => rfl⟩
  | append_singleton vs v ih =>
    rw [foldl_append, foldl_cons, foldl_nil]
    exact ih.step v

/-- The item of a vertex has the list of the vertex. -/
theorem itemNeighbors_activeVertex (cfg : Config) (db : Db) (v : VId) :
    db.itemNeighbors cfg (db.activeVertex v) = db.base cfg v := rfl

/-- The page-local scan has the edges of the active vertices on pages below `get_page_count`. -/
theorem pageLocalEdgeScan_perm (cfg : Config) (db : Db) (data : Nat → UInt64)
    (stale : Nat → ActiveVertex) : (pageLocalEdgeScan cfg db data stale).Perm
      ((db.counted (drainedVertices db.getVertexCount data)).flatMap (db.readEdges cfg)) := by
  have h := gathered_foldl db (drainedVertices db.getVertexCount data)
  unfold pageLocalEdgeScan
  dsimp only
  set st := (drainedVertices db.getVertexCount data).foldl (gatherVertex db)
    ⟨[], [], fun _ => 0, fun _ => false⟩
  have hitems : (db.counted (drainedVertices db.getVertexCount data)).flatMap (db.readEdges cfg) =
      st.activeVertices.flatMap (db.itemEdges cfg) := by
    rw [h.activeVertices, flatMap_map]
    refine flatMap_congr fun v _ => ?_
    show db.readEdges cfg v = (db.itemNeighbors cfg (db.activeVertex v)).map fun dst => (v, dst)
    rw [itemNeighbors_activeVertex]
    rfl
  rw [hitems]
  split_ifs with hempty
  · rw [isEmpty_iff.1 hempty]
    rfl
  · simp only [CountingSort.group_eq_filter h.pageCounts stale]
    rw [← flatMap_assoc]
    refine List.Perm.flatMap_right _ (CountingSort.flatMap_filter_perm ?_ _ fun a ha => ?_)
    · exact (perm_insertionSort _ _).nodup_iff.2 h.nodup
    · rw [mem_insertionSort, h.activePages, h.pageSeen]
      exact ⟨a, ha, rfl⟩

/-! ## When both scans have the same edges -/

/-- Vertex `v` is marked in a word that the loops read. -/
def IsActive (n : Nat) (data : Nat → UInt64) (v : Nat) : Prop :=
  v < n ∧ v / 64 < numWords n ∧ (data (v / 64)).toNat.testBit (v % 64) = true

/-- The vertex numbers of the words do not wrap around. -/
theorem bitVertex_eq {n wordIdx bit : Nat} (hidx : wordIdx < numWords n) (hbit : bit < 64) :
    bitVertex wordIdx bit = wordIdx * 64 + bit := by
  unfold numWords at hidx
  exact mod_eq_of_lt (by omega)

theorem mem_wordVertices (hidx : wordIdx < numWords n) (word : UInt64) (v : Nat) {k d : Nat}
    (hd : k + d = 64) : v ∈ wordVertices n wordIdx word (range' k d) ↔
      ∃ b, k ≤ b ∧ b < 64 ∧ word.toNat.testBit b = true ∧ v = wordIdx * 64 + b ∧ v < n := by
  induction d generalizing k with
  | zero =>
    refine iff_of_false (not_mem_nil) ?_
    rintro ⟨b, hkb, hb, -⟩
    omega
  | succ d ih =>
    have hv := bitVertex_eq hidx (show k < 64 by omega)
    rw [range'_succ]
    unfold wordVertices
    split_ifs with hk hge
    · have hpast : n ≤ wordIdx * 64 + k := hv ▸ hge
      -- the vertices of the later bits are past `n` too
      refine iff_of_false (not_mem_nil) ?_
      rintro ⟨b, hkb, -, -, rfl, hlt⟩
      omega
    · have hbelow : wordIdx * 64 + k < n := hv ▸ not_le.1 hge
      rw [mem_cons, ih (by omega), hv]
      constructor
      · rintro (rfl | ⟨b, hkb, hb, hbit, hvb, hlt⟩)
        · exact ⟨k, le_rfl, by omega, hk, rfl, by omega⟩
        · exact ⟨b, by omega, hb, hbit, hvb, hlt⟩
      · rintro ⟨b, hkb, hb, hbit, hvb, hlt⟩
        rcases Nat.eq_or_lt_of_le hkb with rfl | hkb
        · exact .inl hvb
        · exact .inr ⟨b, hkb, hb, hbit, hvb, hlt⟩
    · rw [ih (by omega)]
      constructor
      · rintro ⟨b, hkb, hb, hbit, hvb, hlt⟩
        exact ⟨b, by omega, hb, hbit, hvb, hlt⟩
      · rintro ⟨b, hkb, hb, hbit, hvb, hlt⟩
        rcases Nat.eq_or_lt_of_le hkb with rfl | hkb
        · exact absurd hbit hk
        · exact ⟨b, hkb, hb, hbit, hvb, hlt⟩

theorem mem_drainedVertices (n : Nat) (data : Nat → UInt64) (v : Nat) :
    v ∈ drainedVertices n data ↔ IsActive n data v := by
  unfold drainedVertices
  rw [mem_flatMap]
  have hword : ∀ wordIdx ∈ range (numWords n), v ∈ drainWord n wordIdx 64 (data wordIdx) ↔
      ∃ b, 0 ≤ b ∧ b < 64 ∧ (data wordIdx).toNat.testBit b = true ∧
        v = wordIdx * 64 + b ∧ v < n := by
    intro wordIdx hidx
    rw [drainWord_eq n wordIdx 64 (k := 0) rfl le_rfl fun i hi => absurd hi (Nat.not_lt_zero i)]
    exact mem_wordVertices (mem_range.1 hidx) _ v rfl
  constructor
  · rintro ⟨(wordIdx : Nat), hidx, hmem⟩
    obtain ⟨b, -, hb, hbit, hv, hlt⟩ := (hword wordIdx hidx).1 hmem
    have hdiv : v / 64 = wordIdx := by omega
    have hmod : v % 64 = b := by omega
    refine ⟨hlt, ?_, ?_⟩
    · rw [hdiv]
      exact mem_range.1 hidx
    · rw [hdiv, hmod]
      exact hbit
  · rintro ⟨hlt, hidx, hbit⟩
    refine ⟨v / 64, mem_range.2 hidx, (hword _ (mem_range.2 hidx)).2 ?_⟩
    exact ⟨v % 64, Nat.zero_le _, mod_lt _ (by decide), hbit, by omega, hlt⟩

/-- The page-local scan and the word-by-word scan call `process` for the same edges, each as often,
and so their sums are the same, whatever the monoid. -/
def SameScan (cfg : Config) (db : Db) (data : Nat → UInt64) (stale : Nat → ActiveVertex) : Prop :=
  (pageLocalEdgeScan cfg db data stale).Perm (wordEdgeScan cfg db data) ∧
    ∀ (M : Type) [AddCommMonoid M] (process : VId × VId → M),
      ((pageLocalEdgeScan cfg db data stale).map process).sum =
        ((wordEdgeScan cfg db data).map process).sum

/-- The vertices that the gathering loop leaves out. -/
def Db.uncounted (db : Db) (vs : List VId) : List VId :=
  vs.filter fun v => ¬ (db.location v).1 < db.csrPool.diskManager.validPageCount

/-- The word-by-word scan has the edges of the left out vertices beside the page-local scan's. -/
theorem wordEdgeScan_perm (cfg : Config) (db : Db) (data : Nat → UInt64)
    (stale : Nat → ActiveVertex) :
    (pageLocalEdgeScan cfg db data stale ++
      (db.uncounted (drainedVertices db.getVertexCount data)).flatMap (db.readEdges cfg)).Perm
      (wordEdgeScan cfg db data) := by
  refine ((pageLocalEdgeScan_perm cfg db data stale).append_right _).trans ?_
  rw [wordEdgeScan_eq, ← flatMap_append]
  refine List.Perm.flatMap_right _ ?_
  have hall := filter_append_perm
    (fun v => decide ((db.location v).1 < db.csrPool.diskManager.validPageCount))
    (drainedVertices db.getVertexCount data)
  simp only [← decide_not] at hall
  exact hall

/-- The two scans of a database call `process` for the same edges exactly when every active vertex
that has neighbours on disk is located on a page below `get_page_count`. -/
theorem pageLocalScan_iff (cfg : Config) (db : Db) (data : Nat → UInt64)
    (stale : Nat → ActiveVertex) : SameScan cfg db data stale ↔
      ∀ v, IsActive db.getVertexCount data v → db.base cfg v ≠ [] →
        (db.location v).1 < db.csrPool.diskManager.validPageCount := by
  have hperm := wordEdgeScan_perm cfg db data stale
  set missed := (db.uncounted (drainedVertices db.getVertexCount data)).flatMap (db.readEdges cfg)
    with hmissed
  have hnil : missed = [] ↔ ∀ v, IsActive db.getVertexCount data v → db.base cfg v ≠ [] →
      (db.location v).1 < db.csrPool.diskManager.validPageCount := by
    rw [hmissed, flatMap_eq_nil_iff]
    refine forall_congr' fun v => ?_
    rw [Db.uncounted, mem_filter, mem_drainedVertices, Db.readEdges, map_eq_nil_iff]
    simp only [decide_eq_true_eq, and_imp]
    exact ⟨fun h hact hne => by_contra fun hge => hne (h hact hge),
      fun h hact hge => by_contra fun hne => hge (h hact hne)⟩
  rw [← hnil]
  constructor
  · rintro ⟨hsame, -⟩
    have hlen := (hperm.trans hsame.symm).length_eq
    rw [length_append] at hlen
    exact length_eq_zero_iff.1 (by omega)
  · intro h
    rw [h, append_nil] at hperm
    exact ⟨hperm, fun M _ process => (hperm.map process).sum_eq⟩

/-- After a consolidation with no flush, `get_page_count` does not count the page of the vertices:
the page-local scan has no edges. -/
theorem pageLocalScan_merged :
    ¬ ∀ (cfg : Config) (g : MemGraph) (db0 : Db), 0 < cfg.pageSize → 0 < cfg.deltaPageSize →
      g.vertexCount ≤ cfg.idLimit → g.vertexCount < 2 ^ 32 → Built cfg g db0 →
      ∀ (es : List UpdateEvent) (db : Db), Steps (UpdateStep cfg) db0 es db →
      ∀ (data : Nat → UInt64) (stale : Nat → ActiveVertex), SameScan cfg db data stale := by
  intro h
  have hsame := h slotConfig smallGraph slotDb (by decide) (by decide) (by decide) (by decide)
    slotDb_built _ scanMerged scanMerged_steps (fun _ => 2 ^ 64 - 1) fun _ => ⟨0, 0, 0, .normal⟩
  exact absurd hsame.1.length_eq (by decide +kernel)

end BwGraph
