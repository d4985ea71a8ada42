import BwGraph.Mem.GraphText

/-
  The constructors of `mem_sub_com_t` and `mem_sub_csr_t` side by side. Both `has_edge` search a
  list as if it were ascending. The constructor from a map sorts, so does the one from a file with
  deduplication; the one from a file without, the one from vectors and that of `mem_sub_csr_t` take
  the lists as they come. So `has_edge` agrees with `get_neighbors` exactly if those lists can be
  searched (`hasEdge_iff`).
-/

namespace BwGraph

open Rows CountingSort List Option

/-! ## Lists that can be searched -/

/-- `std::binary_search` finds all that is in the list. -/
def RowSearchable (row : List VId) : Prop := Searchable (fun i => row.getD i 0) row.length

variable {row : List VId}

theorem exists_getD_iff {v : VId} : (∃ i < row.length, row.getD i 0 = v) ↔ v ∈ row := by
  constructor
  · intro h
    obtain ⟨i, hi, rfl⟩ := h
    rw [getD_eq_getElem _ _ hi]
    exact getElem_mem hi
  · intro h
    obtain ⟨i, hi, rfl⟩ := getElem_of_mem h
    exact ⟨i, hi, getD_eq_getElem _ _ hi⟩

theorem searchRow_iff : (∀ v, searchRow row v = true ↔ v ∈ row) ↔ RowSearchable row := by
  unfold RowSearchable
  rw [← binarySearch_complete_iff]
  refine forall_congr' fun v => ?_
  rw [exists_getD_iff]
  exact Iff.rfl

theorem ascending_iff :
    (∀ i j, i < j → j < row.length → row.getD i 0 ≤ row.getD j 0) ↔ row.Pairwise (· ≤ ·) := by
  rw [pairwise_iff_getElem]
  constructor
  · intro h i j hi hj hij
    have hle := h i j hij hj
    rwa [getD_eq_getElem _ _ hi, getD_eq_getElem _ _ hj] at hle
  · intro h i j hij hj
    have hi := Nat.lt_trans hij hj
    rw [getD_eq_getElem _ _ hi, getD_eq_getElem _ _ hj]
    exact h i j hi hj hij

theorem rowSearchable_of_sorted (h : row.Pairwise (· ≤ ·)) : RowSearchable row :=
  searchable_of_ascending (ascending_iff.2 h)

/-- Without repeats, only an ascending list can be searched. -/
theorem rowSearchable_iff_sorted (hnd : row.Nodup) : RowSearchable row ↔ row.Pairwise (· ≤ ·) := by
  unfold RowSearchable
  rw [searchable_iff_ascending, ascending_iff]
  intro i j hi hj he
  rw [getD_eq_getElem _ _ hi, getD_eq_getElem _ _ hj] at he
  exact (List.Nodup.getElem_inj_iff hnd).1 he

/-! ## The constructors -/

/-- What a constructor is given. -/
inductive SubInput
  | comEmpty
  | comMap (ho : HashOrder) (adjMap : AdjMap) (communityMap : AList fun _ : VId => Nat)
  | comVectors (offsets : List Nat) (neighborList : List VId) (communities : List Nat)
  | comFile (filename : String) (content : Option (List Char)) (hasCommunities : Bool)
      (deduplication : Bool)
  | csrEmpty
  | csrMap (ho : HashOrder) (adjMap : AdjMap)

/-- `mem_graph_i`: an object of one of the two classes. -/
inductive MemGraphI
  | com (g : SubCom)
  | csr (g : SubCsr)

def SubInput.construct : SubInput → Except MemError MemGraphI
  | comEmpty => .ok (.com .new)
  | comMap ho adjMap communityMap => (SubCom.ofAdjMap ho adjMap communityMap).map .com
  | comVectors offsets neighborList communities =>
    .ok (.com (.ofVectors offsets neighborList communities))
  | comFile filename content hasCommunities deduplication =>
    (SubCom.ofFile filename content hasCommunities deduplication).map .com
  | csrEmpty => .ok (.csr .new)
  | csrMap ho adjMap => .ok (.csr (.ofAdjMap ho adjMap))

namespace MemGraphI

def getNeighbors : MemGraphI → VId → Option (List VId)
  | com g, v => g.getNeighbors v
  | csr g, v => g.getNeighbors v

def hasEdge : MemGraphI → VId → VId → Option Bool
  | com g, src, dst => g.hasEdge src dst
  | csr g, src, dst => g.hasEdge src dst

/-- `has_edge` holds of exactly what `get_neighbors` lists. -/
def EdgeAgrees (g : MemGraphI) : Prop :=
  ∀ u < 2 ^ 32, ∀ v, ∃ row b, g.getNeighbors u = some row ∧ g.hasEdge u v = some b ∧
    (b = true ↔ v ∈ row)

end MemGraphI

/-- The list of `u` in the vectors. The position behind `u` is computed in 32 bits. -/
def vectorRow (offsets : List Nat) (neighborList : List VId) (u : VId) : List VId :=
  slice neighborList (offsets.getD u 0) (offsets.getD ((u + 1) % 2 ^ 32) 0)

/-- The offsets of each list of the vectors are in order and within the neighbours. -/
def SubInput.Framed : SubInput → Prop
  | comVectors offsets neighborList _ => ∀ u < 2 ^ 32, u + 1 < offsets.length →
    offsets.getD u 0 ≤ offsets.getD ((u + 1) % 2 ^ 32) 0 ∧
      offsets.getD ((u + 1) % 2 ^ 32) 0 ≤ neighborList.length
  | _ => True

/-- The lists that are stored in the order they come in. -/
def SubInput.AsGiven : SubInput → List VId → Prop
  | comVectors offsets neighborList _, row =>
    ∃ u < 2 ^ 32, u + 1 < offsets.length ∧ vectorRow offsets neighborList u = row
  | comFile _ (some content) _ false, row =>
    ∃ u, (∀ n, lastHeader (getlines content) = some n → u < n) ∧
      recorded (getlines content) u = row
  | csrMap _ adjMap, row => ∃ v < 2 ^ 32, adjMap.get v = row
  | _, _ => False

/-! ## What the queries search -/

theorem SubCom.hasEdge_eq (g : SubCom) (u v : VId) :
    g.hasEdge u v = (g.getNeighbors u).map fun row => searchRow row v := by
  unfold SubCom.hasEdge SubCom.getNeighbors
  split_ifs
  · rfl
  · rfl

theorem SubCsr.hasEdge_eq (g : SubCsr) (u v : VId) :
    g.hasEdge u v = (g.getNeighbors u).map fun row => searchRow row v := by
  unfold SubCsr.hasEdge SubCsr.getNeighbors
  rcases g.vertexIndex.lookup u with _ | i
  · rfl
  · rfl

theorem MemGraphI.hasEdge_eq (g : MemGraphI) (u v : VId) :
    g.hasEdge u v = (g.getNeighbors u).map fun row => searchRow row v := by
  rcases g with g | g
  · exact g.hasEdge_eq u v
  · exact g.hasEdge_eq u v

variable {g : MemGraphI}

/-- Each list must be there and be one that can be searched. -/
theorem MemGraphI.edgeAgrees_iff : g.EdgeAgrees ↔
    ∀ u < 2 ^ 32, ∃ row, g.getNeighbors u = some row ∧ RowSearchable row := by
  refine forall_congr' fun u => forall_congr' fun _ => ?_
  simp only [g.hasEdge_eq]
  constructor
  · intro h
    obtain ⟨row, -, hrow, -⟩ := h 0
    refine ⟨row, hrow, searchRow_iff.1 fun v => ?_⟩
    obtain ⟨r, b, hr, hb, hiff⟩ := h v
    rw [hrow] at hr hb
    rwa [← some.inj hr, ← some.inj hb] at hiff
  · intro h v
    obtain ⟨row, hrow, hs⟩ := h
    rw [hrow]
    exact ⟨row, searchRow row v, rfl, rfl, searchRow_iff.2 hs v⟩

/-- The same where the lists are known. -/
theorem MemGraphI.edgeAgrees_iff_rows {rows : VId → List VId}
    (h : ∀ u < 2 ^ 32, g.getNeighbors u = some (rows u)) :
    g.EdgeAgrees ↔ ∀ u < 2 ^ 32, RowSearchable (rows u) := by
  rw [MemGraphI.edgeAgrees_iff]
  refine forall_congr' fun u => forall_congr' fun hu => ?_
  rw [h u hu]
  constructor
  · intro hex
    obtain ⟨row, hrow, hs⟩ := hex
    rwa [some.inj hrow]
  · intro hs
    exact ⟨rows u, rfl, hs⟩

theorem rowSearchable_nil : RowSearchable [] := rowSearchable_of_sorted .nil

/-! ## Constructor by constructor -/

section

variable {offsets : List Nat} {neighborList : List VId} {communities : List Nat} {u : Nat}

theorem getNeighbors_ofVectors (hu : u + 1 < offsets.length) :
    (SubCom.ofVectors offsets neighborList communities).getNeighbors u =
      if offsets.getD u 0 ≤ offsets.getD ((u + 1) % 2 ^ 32) 0 ∧
        offsets.getD ((u + 1) % 2 ^ 32) 0 ≤ neighborList.length then
        some (vectorRow offsets neighborList u) else none := by
  have hne : offsets ≠ [] := fun he => by rw [he] at hu; exact absurd hu (Nat.not_lt_zero _)
  have hnum : u < (SubCom.ofVectors offsets neighborList communities).numVertices := by
    unfold SubCom.ofVectors
    dsimp only
    rw [if_neg hne]
    exact Nat.lt_sub_of_add_lt hu
  have hnext : (u + 1) % 2 ^ 32 < offsets.length := Nat.lt_of_le_of_lt (Nat.mod_le _ _) hu
  have hlt : u < offsets.length := Nat.lt_of_succ_lt hu
  unfold SubCom.getNeighbors
  rw [if_pos hnum]
  unfold rowAt vectorRow SubCom.ofVectors
  dsimp only
  rw [getElem?_eq_getElem hlt, getElem?_eq_getElem hnext, getD_eq_getElem _ _ hlt,
    getD_eq_getElem _ _ hnext]

theorem getNeighbors_ofVectors_out (hu : ¬u + 1 < offsets.length) :
    (SubCom.ofVectors offsets neighborList communities).getNeighbors u = some [] := by
  have hnum : ¬u < (SubCom.ofVectors offsets neighborList communities).numVertices := by
    unfold SubCom.ofVectors
    dsimp only
    intro hlt
    split_ifs at hlt
    · exact Nat.not_lt_zero u hlt
    · exact hu (Nat.add_lt_of_lt_sub hlt)
  unfold SubCom.getNeighbors
  rw [if_neg hnum]

end

theorem edgeAgrees_ofVectors (offsets : List Nat) (neighborList : List VId) (communities : List Nat) :
    (MemGraphI.com (.ofVectors offsets neighborList communities)).EdgeAgrees ↔
      (SubInput.comVectors offsets neighborList communities).Framed ∧
        ∀ row, (SubInput.comVectors offsets neighborList communities).AsGiven row →
          RowSearchable row := by
  rw [MemGraphI.edgeAgrees_iff]
  constructor
  · intro h
    refine ⟨fun u hu hlen => ?_, fun row hrow => ?_⟩
    · obtain ⟨row, hrow, -⟩ := h u hu
      change (SubCom.ofVectors offsets neighborList communities).getNeighbors u = some row at hrow
      rw [getNeighbors_ofVectors hlen] at hrow
      by_contra hframe
      rw [if_neg hframe] at hrow
      exact absurd hrow (by simp)
    · obtain ⟨u, hu, hlen, rfl⟩ := hrow
      obtain ⟨row, hrow, hs⟩ := h u hu
      change (SubCom.ofVectors offsets neighborList communities).getNeighbors u = some row at hrow
      rw [getNeighbors_ofVectors hlen] at hrow
      split_ifs at hrow
      rwa [some.inj hrow]
  · intro h u hu
    obtain ⟨hframe, hrows⟩ := h
    show ∃ row, (SubCom.ofVectors offsets neighborList communities).getNeighbors u = some row ∧ _
    by_cases hlen : u + 1 < offsets.length
    · rw [getNeighbors_ofVectors hlen, if_pos (hframe u hu hlen)]
      exact ⟨_, rfl, hrows _ ⟨u, hu, hlen, rfl⟩⟩
    · rw [getNeighbors_ofVectors_out hlen]
      exact ⟨[], rfl, rowSearchable_nil⟩

variable {lines : List (List Char)}

theorem not_isHeader_of_lastHeader (h : lastHeader lines = none) :
    ∀ line ∈ lines, (parseLine line).isHeader ≠ true := by
  induction lines using reverseRecOn with
  | nil => exact fun line hl => absurd hl not_mem_nil
  | append_singleton lines line ih =>
    rw [lastHeader_concat] at h
    intro l hl
    rcases hp : parseLine line with _ | ⟨n, m⟩ | ⟨v, c⟩ | ⟨a, b⟩
    all_goals rw [hp] at h
    · rcases mem_append.1 hl with hl | hl
      · exact ih h l hl
      · rw [mem_singleton.1 hl, hp]
        exact Bool.false_ne_true
    · exact absurd h (some_ne_none _)
    · rcases mem_append.1 hl with hl | hl
      · exact ih h l hl
      · rw [mem_singleton.1 hl, hp]
        exact Bool.false_ne_true
    · rcases mem_append.1 hl with hl | hl
      · exact ih h l hl
      · rw [mem_singleton.1 hl, hp]
        exact Bool.false_ne_true

/-- A vertex that no line mentions has no recorded neighbours. -/
theorem BuiltFrom.recorded_nil {deduplication : Bool} {g : SubCom}
    (h : BuiltFrom deduplication lines g) (hnone : lastHeader lines = none) {u : Nat}
    (hu : ¬u < g.numVertices) : recorded lines u = [] := by
  have hfirst : HeaderFirst lines := pairwise_of_forall_mem_list fun a _ b hb hh =>
    absurd hh (not_isHeader_of_lastHeader hnone b hb)
  refine eq_nil_iff_forall_not_mem.2 fun v hv => ?_
  obtain ⟨line, hl, hpush⟩ := (mem_recorded hfirst).1 hv
  exact hu (h.lt_of_pushes hl hpush).1

theorem edgeAgrees_ofFile {filename : String} {content : List Char}
    {hasCommunities deduplication : Bool} {g : SubCom}
    (h : BuiltFrom deduplication (getlines content) g) :
    (MemGraphI.com g).EdgeAgrees ↔
      ∀ row, (SubInput.comFile filename (some content) hasCommunities deduplication).AsGiven row →
        RowSearchable row := by
  have hmax : maxVertices + 1 < 2 ^ 32 := by decide
  have hget : ∀ u < 2 ^ 32, (MemGraphI.com g).getNeighbors u =
      some (if u < g.numVertices then fileRow deduplication (getlines content) u else []) :=
    fun u _ => h.getNeighbors_eq u
  rw [MemGraphI.edgeAgrees_iff_rows hget]
  rcases deduplication with _ | _
  · constructor
    · intro hall row hrow
      obtain ⟨u, hu, rfl⟩ := hrow
      by_cases hlt : u < g.numVertices
      · have hs := hall u (Nat.lt_of_lt_of_le hlt (by have := h.small; omega))
        rw [if_pos hlt] at hs
        exact hs
      · have hnone : lastHeader (getlines content) = none := by
          refine eq_none_iff_forall_ne_some.2 fun n hn => hlt ?_
          rw [h.header n hn]
          exact hu n hn
        rw [h.recorded_nil hnone hlt]
        exact rowSearchable_nil
    · intro hrows u _
      split_ifs with hlt
      · refine hrows _ ⟨u, fun n hn => ?_, rfl⟩
        rw [← h.header n hn]
        exact hlt
      · exact rowSearchable_nil
  · refine iff_of_true (fun u _ => ?_) fun row hrow => absurd hrow id
    split_ifs
    · unfold fileRow
      rw [if_pos rfl]
      exact rowSearchable_of_sorted
        ((pairwise_unique (pairwise_insertionSort _ _)).imp Nat.le_of_lt)
    · exact rowSearchable_nil

theorem edgeAgrees_ofAdjMap {ho : HashOrder} {adjMap : AdjMap}
    {communityMap : AList fun _ : VId => Nat} {g : SubCom}
    (h : SubCom.ofAdjMap ho adjMap communityMap = .ok g) : (MemGraphI.com g).EdgeAgrees := by
  have hget : ∀ u < 2 ^ 32, (MemGraphI.com g).getNeighbors u = some (SubCom.sortedRow adjMap u) :=
    fun u _ => (SubCom.queries_ofAdjMap h u).1
  exact (MemGraphI.edgeAgrees_iff_rows hget).2
    fun u _ => rowSearchable_of_sorted (pairwise_insertionSort _ _)

theorem edgeAgrees_csr (ho : HashOrder) (adjMap : AdjMap) :
    (MemGraphI.csr (.ofAdjMap ho adjMap)).EdgeAgrees ↔
      ∀ row, (SubInput.csrMap ho adjMap).AsGiven row → RowSearchable row := by
  have hget : ∀ u < 2 ^ 32, (MemGraphI.csr (.ofAdjMap ho adjMap)).getNeighbors u =
      some (adjMap.get u) := fun u _ => (SubCsr.queries_ofAdjMap ho adjMap u).1
  rw [MemGraphI.edgeAgrees_iff_rows hget]
  constructor
  · intro h row hrow
    obtain ⟨v, hv, rfl⟩ := hrow
    exact h v hv
  · intro h u hu
    exact h _ ⟨u, hu, rfl⟩

/-- What has been built answers right exactly if the offsets it was given frame its lists and those
it stores as given can be searched. -/
theorem SubInput.edgeAgrees_iff {input : SubInput} (h : input.construct = .ok g) :
    g.EdgeAgrees ↔ input.Framed ∧ ∀ row, input.AsGiven row → RowSearchable row := by
  have hempty : ∀ g : MemGraphI, (∀ u, g.getNeighbors u = some []) → g.EdgeAgrees := fun g hg =>
    (MemGraphI.edgeAgrees_iff_rows fun u _ => hg u).2 fun _ _ => rowSearchable_nil
  rcases input with _ | ⟨ho, adjMap, communityMap⟩ | ⟨offsets, neighborList, communities⟩ |
    ⟨filename, content, hasCommunities, deduplication⟩ | _ | ⟨ho, adjMap⟩
  · obtain rfl := Except.ok.inj h
    exact iff_of_true (hempty _ fun u => rfl) ⟨trivial, fun row hrow => absurd hrow id⟩
  · change (SubCom.ofAdjMap ho adjMap communityMap).map MemGraphI.com = .ok g at h
    rcases hbuilt : SubCom.ofAdjMap ho adjMap communityMap with e | built
    all_goals rw [hbuilt] at h
    · exact nomatch h
    obtain rfl := Except.ok.inj h
    exact iff_of_true (edgeAgrees_ofAdjMap hbuilt) ⟨trivial, fun row hrow => absurd hrow id⟩
  · obtain rfl := Except.ok.inj h
    exact edgeAgrees_ofVectors offsets neighborList communities
  · change (SubCom.ofFile filename content hasCommunities deduplication).map MemGraphI.com =
      .ok g at h
    rcases content with _ | content
    · exact nomatch h
    rcases ofFile_cases filename content hasCommunities deduplication with
      ⟨-, message, he⟩ | ⟨-, -, he⟩ | ⟨-, -, built, he, hbuilt⟩
    all_goals rw [he] at h
    · exact nomatch h
    · exact nomatch h
    · obtain rfl := Except.ok.inj h
      exact (edgeAgrees_ofFile hbuilt).trans (and_iff_right trivial).symm
  · obtain rfl := Except.ok.inj h
    exact iff_of_true (hempty _ fun u => rfl) ⟨trivial, fun row hrow => absurd hrow id⟩
  · obtain rfl := Except.ok.inj h
    exact (edgeAgrees_csr ho adjMap).trans (and_iff_right trivial).symm

/-- `has_edge` and `get_neighbors` agree exactly if the offsets a constructor was given frame its
lists and the lists it stores as given can be searched; where these repeat nothing, exactly if they
are ascending. -/
theorem hasEdge_iff {input : SubInput} {g : MemGraphI} (h : input.construct = .ok g) :
    (g.EdgeAgrees ↔ input.Framed ∧ ∀ row, input.AsGiven row → RowSearchable row) ∧
    ((∀ row, input.AsGiven row → row.Nodup) →
      (g.EdgeAgrees ↔ input.Framed ∧ ∀ row, input.AsGiven row → row.Pairwise (· ≤ ·))) := by
  refine ⟨input.edgeAgrees_iff h, fun hnd => ?_⟩
  rw [input.edgeAgrees_iff h]
  refine and_congr_right fun _ => forall_congr' fun row => forall_congr' fun hrow => ?_
  exact rowSearchable_iff_sorted (hnd row hrow)

/-- The list `2, 1` of vertex 0, from a file without deduplication, from vectors and from a map of
`mem_sub_csr_t`: 2 is not found. -/
theorem hasEdge_unsorted :
    (∃ g, (SubInput.comFile "graph.txt" (some "t 3 2\ne 0 2\ne 0 1\n".toList) true
        false).construct = .ok g ∧ g.getNeighbors 0 = some [2, 1] ∧ g.hasEdge 0 2 = some false ∧
        ¬g.EdgeAgrees) ∧
    (∃ g, (SubInput.comVectors [0, 2] [2, 1] [0]).construct = .ok g ∧
      g.getNeighbors 0 = some [2, 1] ∧ g.hasEdge 0 2 = some false ∧ ¬g.EdgeAgrees) ∧
    (∃ g, (SubInput.csrMap .listed (AList.insert 0 [2, 1] ∅)).construct = .ok g ∧
      g.getNeighbors 0 = some [2, 1] ∧ g.hasEdge 0 2 = some false ∧ ¬g.EdgeAgrees) := by
  have hnot : ∀ g : MemGraphI, g.getNeighbors 0 = some [2, 1] → g.hasEdge 0 2 = some false →
      ¬g.EdgeAgrees := by
    intro g hget hedge h
    obtain ⟨row, b, hr, hb, hiff⟩ := h 0 (by decide) 2
    rw [hget] at hr
    rw [hedge] at hb
    obtain rfl := Option.some.inj hr
    obtain rfl := Option.some.inj hb
    exact Bool.false_ne_true (hiff.2 List.mem_cons_self)
  have hfile : SubCom.ofFile "graph.txt" (some "t 3 2\ne 0 2\ne 0 1\n".toList) true false =
      .ok ⟨[0, 2, 3, 4], [2, 1, 0, 0], [0, 0, 0], [[0, 1, 2]], 3⟩ := by decide +kernel
  refine ⟨⟨.com ⟨[0, 2, 3, 4], [2, 1, 0, 0], [0, 0, 0], [[0, 1, 2]], 3⟩, ?_, by decide, by decide,
    hnot _ (by decide) (by decide)⟩, ⟨_, rfl, by decide, by decide,
    hnot _ (by decide) (by decide)⟩, ⟨_, rfl, by decide +kernel, by decide +kernel,
    hnot _ (by decide +kernel) (by decide +kernel)⟩⟩
  show (SubCom.ofFile "graph.txt" (some "t 3 2\ne 0 2\ne 0 1\n".toList) true false).map _ = _
  rw [hfile]
  rfl

/-- Vertex 0 with the list `1, 2`. -/
theorem hasEdge_iff_map :
    (MemGraphI.csr (.ofAdjMap .listed (AList.insert 0 [1, 2] ∅))).EdgeAgrees := by
  have hrow : ∀ row, (SubInput.csrMap .listed (AList.insert 0 [1, 2] ∅)).AsGiven
      row → row = [1, 2] ∨ row = [] := by
    intro row hex
    obtain ⟨v, -, rfl⟩ := hex
    unfold AdjMap.get
    by_cases hv : v = 0
    · rw [hv, AList.lookup_insert]
      exact .inl rfl
    · rw [AList.lookup_insert_ne hv]
      exact .inr rfl
  have hiff := (@hasEdge_iff
    (.csrMap .listed (AList.insert 0 [1, 2] ∅)) _ rfl).2 fun row h => by
      rcases hrow row h with rfl | rfl <;> decide
  exact hiff.2 ⟨trivial, fun row h => by rcases hrow row h with rfl | rfl <;> decide⟩

end BwGraph
