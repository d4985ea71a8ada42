import BwGraph.Mem.GraphFile

/-
  What a graph file says, and when the file constructor of `mem_sub_com_t` takes it as said. An
  edge is a line with two numbers; the ids are the numbers as they are written.

  The constructor reads other graphs from some files: an id of 2^32 or more is taken modulo 2^32
  and then checked, a line with a missing number is an edge to vertex 0, without a header the
  edges of the id `MAX_VERTICES` are dropped although the vertex exists, and the community number
  `UINT32_MAX` makes it write outside an array. These are all the cases (`ofFile_iff`).
-/

namespace BwGraph

open Rows
open List

/-- A line `e u v`. -/
def IsEdge (line : List Char) (u v : Nat) : Prop :=
  ∃ a b, writtenLine line = .edge a b ∧ a ≠ [] ∧ b ≠ [] ∧ numberValue a = u ∧ numberValue b = v

/-- The ids of a line, as written. -/
def writtenIds (line : List Char) : List Nat :=
  match writtenLine line with
  | .vertex v _ => [numberValue v]
  | .edge src dst => [numberValue src, numberValue dst]
  | _ => []

/-- The header, if there is one, comes first; lines that are skipped may precede it. -/
def HeaderFirst (lines : List (List Char)) : Prop :=
  lines.Pairwise fun a b => (parseLine b).isHeader = true → (parseLine a).isSkip = true

/-- `v` is a neighbour of `u`. -/
def SubCom.Adjacent (g : SubCom) (u v : VId) : Prop :=
  ∃ row, g.getNeighbors u = some row ∧ v ∈ row

/-- The graph is the one the lines describe. -/
structure Describes (lines : List (List Char)) (g : SubCom) : Prop where
  offsets : g.offsets.length = g.numVertices + 1 ∧ g.offsets.getD 0 0 = 0 ∧
    (∀ i j, i ≤ j → j ≤ g.numVertices → g.offsets.getD i 0 ≤ g.offsets.getD j 0) ∧
    g.offsets.getD g.numVertices 0 = g.neighborList.length
  ascending : ∀ u, ∃ row, g.getNeighbors u = some row ∧ row.Pairwise (· < ·)
  symmetric : ∀ u v, g.Adjacent u v → g.Adjacent v u
  loopFree : ∀ u, ¬g.Adjacent u u
  edges : ∀ u v, g.Adjacent u v ↔ (∃ line ∈ lines, IsEdge line u v ∨ IsEdge line v u) ∧
    u ≠ v ∧ u < g.numVertices ∧ v < g.numVertices
  limits : ∀ line ∈ lines, ∀ id ∈ writtenIds line, id ≤ maxVertices

/-- What the constructor should do with a file: throw, or return the graph it describes. -/
def Faithful (lines : List (List Char)) : Except MemError SubCom → Prop
  | .error (.runtimeError _) => True
  | .error .outOfRange => False
  | .ok g => Describes lines g

/-- The lines are read as written. -/
structure Plain (lines : List (List Char)) : Prop where
  /-- No id is above the limit. -/
  ids : ∀ line ∈ lines, ∀ id ∈ writtenIds line, id ≤ maxVertices
  /-- No community number makes the last loop leave its array. -/
  community : ¬Crashes lines
  /-- Without a header no edge has the limit as an end. -/
  uncapped : lastHeader lines = none → ∀ line ∈ lines, ∀ u v, IsEdge line u v → u ≠ v →
    u ≠ maxVertices ∧ v ≠ maxVertices
  /-- A line with a missing number adds no edge that no other line has. -/
  complete : ∀ line ∈ lines, ∀ a b, writtenLine line = .edge a b → a = [] ∨ b = [] →
    numberValue a ≠ numberValue b → numberValue a < limitOf lines →
    numberValue b < limitOf lines →
    ∃ line' ∈ lines, IsEdge line' (numberValue a) (numberValue b) ∨
      IsEdge line' (numberValue b) (numberValue a)

/-! ## Lists with the header first -/

variable {line : List Char}

theorem pushes_of_skip {limit u : Nat} (h : parseLine line = .skip) : pushes limit u line = [] :=
  pushes_of_not_edge fun a b => by rw [h]; exact nofun

variable {lines : List (List Char)}

/-- With the header first, every line counts with the final limit. -/
theorem mem_recorded (h : HeaderFirst lines) {u v : Nat} :
    v ∈ recorded lines u ↔ ∃ line ∈ lines, v ∈ pushes (limitOf lines) u line := by
  induction lines using List.reverseRecOn with
  | nil => exact iff_of_false not_mem_nil fun h => absurd h.choose_spec.1 not_mem_nil
  | append_singleton lines line ih =>
    obtain ⟨hbefore, -, hlast⟩ := pairwise_append.1 h
    have ih := ih hbefore
    rw [recorded_concat]
    by_cases hline : ∃ n m, parseLine line = .header n m
    · -- all lines before it are skipped
      obtain ⟨n, m, hp⟩ := hline
      have hskip : ∀ l ∈ lines, parseLine l = .skip := by
        intro l hl
        have hs := hlast l hl line mem_cons_self (by rw [hp]; rfl)
        rcases hpl : parseLine l with _ | _ | _ | _
        · rfl
        all_goals
          rw [hpl] at hs
          exact nomatch hs
      have hnone : ∀ limit, ¬∃ l ∈ lines ++ [line], v ∈ pushes limit u l := by
        intro limit hex
        obtain ⟨l, hl, hv⟩ := hex
        rcases mem_append.1 hl with hl | hl
        · rw [pushes_of_skip (hskip l hl)] at hv
          exact absurd hv not_mem_nil
        · rw [mem_singleton.1 hl,
            pushes_of_not_edge fun a b => by rw [hp]; exact nofun] at hv
          exact absurd hv not_mem_nil
      have hrec : v ∉ recorded lines u := by
        rw [ih]
        intro hex
        obtain ⟨l, hl, hv⟩ := hex
        rw [pushes_of_skip (hskip l hl)] at hv
        exact absurd hv not_mem_nil
      rw [hp]
      refine iff_of_false (fun hv => ?_) (hnone _)
      dsimp only at hv
      split_ifs at hv
      · exact hrec hv
      · exact absurd hv not_mem_nil
    · have hlimit : limitOf (lines ++ [line]) = limitOf lines := by
        unfold limitOf
        rw [lastHeader_concat]
        rcases hp : parseLine line with _ | ⟨n, m⟩ | _ | _
        · rfl
        · exact absurd ⟨n, m, hp⟩ hline
        · rfl
        · rfl
      have hmem : v ∈ recorded lines u ++ pushes (limitOf lines) u line ↔
          ∃ l ∈ lines ++ [line], v ∈ pushes (limitOf lines) u l := by
        rw [mem_append, ih]
        constructor
        · intro hv
          rcases hv with ⟨l, hl, hv⟩ | hv
          · exact ⟨l, mem_append_left _ hl, hv⟩
          · exact ⟨line, mem_append_right _ mem_cons_self, hv⟩
        · intro hv
          obtain ⟨l, hl, hv⟩ := hv
          rcases mem_append.1 hl with hl | hl
          · exact .inl ⟨l, hl, hv⟩
          · rw [mem_singleton.1 hl] at hv
            exact .inr hv
      rw [hlimit, ← hmem]
      rcases hp : parseLine line with _ | ⟨n, m⟩ | _ | _
      · exact Iff.rfl
      · exact absurd ⟨n, m, hp⟩ hline
      · exact Iff.rfl
      · exact Iff.rfl

theorem mem_pushes {limit u v : Nat} :
    v ∈ pushes limit u line ↔ u ≠ v ∧ u < limit ∧ v < limit ∧
      (parseLine line = .edge u v ∨ parseLine line = .edge v u) := by
  unfold pushes
  rcases hp : parseLine line with _ | ⟨n, m⟩ | ⟨w, c⟩ | ⟨a, b⟩
  · exact iff_of_false not_mem_nil fun h => by simp at h
  · exact iff_of_false not_mem_nil fun h => by simp at h
  · exact iff_of_false not_mem_nil fun h => by simp at h
  dsimp only
  rw [GraphLine.edge.injEq, GraphLine.edge.injEq]
  by_cases hstore : a < limit ∧ b < limit ∧ a ≠ b
  · rw [if_pos hstore]
    split_ifs with hua hub hub
    · exact absurd (hua.symm.trans hub) hstore.2.2
    · rw [append_nil, mem_singleton]
      exact ⟨fun hv => ⟨by omega, by omega, by omega, .inl ⟨hua.symm, hv.symm⟩⟩, fun h => by omega⟩
    · rw [nil_append, mem_singleton]
      exact ⟨fun hv => ⟨by omega, by omega, by omega, .inr ⟨hv.symm, hub.symm⟩⟩, fun h => by omega⟩
    · exact iff_of_false not_mem_nil fun h => by omega
  · rw [if_neg hstore]
    exact iff_of_false not_mem_nil fun h => by omega

/-! ## Edges as written -/

theorem parseLine_edge {u v : Nat} (h : parseLine line = .edge u v) :
    ∃ a b, writtenLine line = .edge a b ∧ numberValue a % 2 ^ 32 = u ∧
      numberValue b % 2 ^ 32 = v := by
  rw [parseLine_eq] at h
  rcases hw : writtenLine line with _ | _ | _ | ⟨a, b⟩
  all_goals rw [hw] at h
  · exact nomatch h
  · exact nomatch h
  · exact nomatch h
  · obtain ⟨ha, hb⟩ := GraphLine.edge.inj h
    exact ⟨a, b, rfl, ha, hb⟩

/-- Ids within the limit are stored as they are written. -/
theorem parseLine_of_written {line a b : List Char}
    (hids : ∀ line ∈ lines, ∀ id ∈ writtenIds line, id ≤ maxVertices) (hl : line ∈ lines)
    (hw : writtenLine line = .edge a b) :
    parseLine line = .edge (numberValue a) (numberValue b) := by
  have hlt : maxVertices < 2 ^ 32 := by decide
  have hall := hids line hl
  unfold writtenIds at hall
  rw [hw] at hall
  have ha := hall _ mem_cons_self
  have hb := hall _ (mem_cons_of_mem _ mem_cons_self)
  rw [parseLine_eq, hw]
  show GraphLine.edge _ _ = _
  rw [Nat.mod_eq_of_lt (by omega), Nat.mod_eq_of_lt (by omega)]

section Built

variable {lines : List (List Char)} {deduplication : Bool} {g : SubCom}

/-- The list of a vertex of the graph. -/
theorem BuiltFrom.getNeighbors_eq (h : BuiltFrom deduplication lines g) (v : Nat) :
    g.getNeighbors v = some (if v < g.numVertices then fileRow deduplication lines v else []) := by
  have hmax : maxVertices + 1 < 2 ^ 32 := by decide
  unfold SubCom.getNeighbors
  split_ifs with hv
  · have hlen : v < ((List.range g.numVertices).map (fileRow deduplication lines)).length := by
      rw [length_map, length_range]
      exact hv
    have hlt : v + 1 < 2 ^ 32 := Nat.lt_of_le_of_lt (Nat.le_trans hv h.small) hmax
    rw [Nat.mod_eq_of_lt hlt, h.rows.rowAt_eq hlen, getD_eq_getElem _ _ hlen,
      getElem_map, getElem_range]
  · rfl

theorem mem_fileRow {u v : Nat} : v ∈ fileRow deduplication lines u ↔ v ∈ recorded lines u := by
  unfold fileRow
  split_ifs
  · rw [mem_unique, mem_insertionSort]
  · exact Iff.rfl

section

variable (h : BuiltFrom deduplication lines g)
include h

theorem BuiltFrom.adjacent_iff (hfirst : HeaderFirst lines) {u v : Nat} : g.Adjacent u v ↔
      u < g.numVertices ∧ ∃ line ∈ lines, v ∈ pushes (limitOf lines) u line := by
  unfold SubCom.Adjacent
  rw [h.getNeighbors_eq]
  constructor
  · intro hadj
    obtain ⟨row, hrow, hv⟩ := hadj
    obtain rfl := Option.some.inj hrow
    split_ifs at hv with hu
    · exact ⟨hu, (mem_recorded hfirst).1 (mem_fileRow.1 hv)⟩
    · exact absurd hv not_mem_nil
  · intro hadj
    obtain ⟨hu, hpush⟩ := hadj
    rw [if_pos hu]
    exact ⟨_, rfl, mem_fileRow.2 ((mem_recorded hfirst).2 hpush)⟩

/-- Both ends of a stored edge are vertices. -/
theorem BuiltFrom.lt_of_pushes {line : List Char} (hl : line ∈ lines) {u v : Nat}
    (hv : v ∈ pushes (limitOf lines) u line) : u < g.numVertices ∧ v < g.numVertices := by
  obtain ⟨-, hu, hv, hedge⟩ := mem_pushes.1 hv
  rcases hn : lastHeader lines with _ | n
  · have hids := (h.ids hn).2 line hl
    rcases hedge with hp | hp
    · rw [hp] at hids
      exact hids
    · rw [hp] at hids
      exact hids.symm
  · unfold limitOf at hu hv
    rw [hn] at hu hv
    rw [h.header n hn]
    exact ⟨hu, hv⟩

theorem BuiltFrom.offsets_ok :
    g.offsets.length = g.numVertices + 1 ∧ g.offsets.getD 0 0 = 0 ∧
      (∀ i j, i ≤ j → j ≤ g.numVertices → g.offsets.getD i 0 ≤ g.offsets.getD j 0) ∧
      g.offsets.getD g.numVertices 0 = g.neighborList.length := by
  obtain ⟨hoffsets, hlength, -⟩ := h.rows
  have hlen : (((List.range g.numVertices).map (fileRow deduplication lines)).map
      List.length).length = g.numVertices := by
    rw [length_map, length_map, length_range]
  have hget : ∀ i ≤ g.numVertices, g.offsets.getD i 0 = CountingSort.offset (fun j =>
      (((List.range g.numVertices).map (fileRow deduplication lines)).getD j []).length) i := by
    intro i hi
    rw [hoffsets, getD_eq_getElem?_getD, getElem?_starts (by rw [hlen]; exact hi),
      offset_map_length]
    rfl
  refine ⟨?_, hget 0 (Nat.zero_le _), fun i j hij hj => ?_, ?_⟩
  · rw [hoffsets, length_starts, hlen]
  · rw [hget i (Nat.le_trans hij hj), hget j hj]
    exact offset_mono hij
  · rw [hget _ (Nat.le_refl _), hlength, length_map, length_range]

end

section

variable (h : BuiltFrom true lines g) (hfirst : HeaderFirst lines)
include h hfirst

/-- The conditions that do not depend on how the numbers are read. -/
theorem BuiltFrom.describes_of
    (hedges : ∀ u v, g.Adjacent u v ↔ (∃ line ∈ lines, IsEdge line u v ∨ IsEdge line v u) ∧
      u ≠ v ∧ u < g.numVertices ∧ v < g.numVertices)
    (hids : ∀ line ∈ lines, ∀ id ∈ writtenIds line, id ≤ maxVertices) : Describes lines g := by
  refine ⟨h.offsets_ok, fun u => ⟨_, h.getNeighbors_eq u, ?_⟩, fun u v hadj => ?_, fun u hadj => ?_,
    hedges, hids⟩
  · split_ifs
    · unfold fileRow
      rw [if_pos rfl]
      exact pairwise_unique (pairwise_insertionSort _ _)
    · exact .nil
  · obtain ⟨-, line, hl, hv⟩ := (h.adjacent_iff hfirst).1 hadj
    obtain ⟨hne, hu, hlt, hedge⟩ := mem_pushes.1 hv
    exact (h.adjacent_iff hfirst).2 ⟨(h.lt_of_pushes hl hv).2, line, hl,
      mem_pushes.2 ⟨hne.symm, hlt, hu, hedge.symm⟩⟩
  · obtain ⟨-, line, hl, hv⟩ := (h.adjacent_iff hfirst).1 hadj
    exact (mem_pushes.1 hv).1 rfl

/-- A file read as written gives the graph it describes. -/
theorem BuiltFrom.describes (hplain : Plain lines) : Describes lines g := by
  refine h.describes_of hfirst (fun u v => ?_) hplain.ids
  rw [h.adjacent_iff hfirst]
  constructor
  · intro hadj
    obtain ⟨hu, line, hl, hpush⟩ := hadj
    have hv := (h.lt_of_pushes hl hpush).2
    obtain ⟨hne, hul, hvl, hedge⟩ := mem_pushes.1 hpush
    refine ⟨?_, hne, hu, hv⟩
    -- the line itself, or the one that completes it
    have hwritten : ∀ x y, parseLine line = .edge x y → x ≠ y → x < limitOf lines →
        y < limitOf lines → ∃ line ∈ lines, IsEdge line x y ∨ IsEdge line y x := by
      intro x y hp hxy hx hy
      obtain ⟨a, b, hw, -, -⟩ := parseLine_edge hp
      have hstored := parseLine_of_written hplain.ids hl hw
      rw [hp] at hstored
      obtain ⟨rfl, rfl⟩ := GraphLine.edge.inj hstored
      by_cases hmissing : a = [] ∨ b = []
      · exact hplain.complete line hl a b hw hmissing hxy hx hy
      · rw [not_or] at hmissing
        exact ⟨line, hl, .inl ⟨a, b, hw, hmissing.1, hmissing.2, rfl, rfl⟩⟩
    rcases hedge with hp | hp
    · exact hwritten u v hp hne hul hvl
    · obtain ⟨l, hmem, hor⟩ := hwritten v u hp hne.symm hvl hul
      exact ⟨l, hmem, hor.symm⟩
  · intro hex
    obtain ⟨⟨line, hl, hor⟩, hne, hu, hv⟩ := hex
    have hstored : ∀ x y, IsEdge line x y → x ≠ y → x < g.numVertices → y < g.numVertices →
        parseLine line = .edge x y ∧ x < limitOf lines ∧ y < limitOf lines := by
      intro x y hedge hxy hx hy
      obtain ⟨a, b, hw, ha, hb, rfl, rfl⟩ := hedge
      refine ⟨parseLine_of_written hplain.ids hl hw, ?_⟩
      unfold limitOf
      rcases hn : lastHeader lines with _ | n
      · have hcap := hplain.uncapped hn line hl _ _ ⟨a, b, hw, ha, hb, rfl, rfl⟩ hxy
        have hall := hplain.ids line hl
        unfold writtenIds at hall
        rw [hw] at hall
        have h1 := hall _ mem_cons_self
        have h2 := hall _ (mem_cons_of_mem _ mem_cons_self)
        show _ < maxVertices ∧ _ < maxVertices
        omega
      · rw [h.header n hn] at hx hy
        exact ⟨hx, hy⟩
    refine ⟨hu, line, hl, mem_pushes.2 ?_⟩
    rcases hor with hedge | hedge
    · obtain ⟨hp, hul, hvl⟩ := hstored u v hedge hne hu hv
      exact ⟨hne, hul, hvl, .inl hp⟩
    · obtain ⟨hp, hvl, hul⟩ := hstored v u hedge hne.symm hv hu
      exact ⟨hne, hul, hvl, .inr hp⟩

end

/-- A file that gives the graph it describes is read as written. -/
theorem Describes.plain (hd : Describes lines g) (h : BuiltFrom true lines g)
    (hfirst : HeaderFirst lines) (hcrash : ¬Crashes lines) : Plain lines := by
  refine ⟨hd.limits, hcrash, fun hn line hl u v hedge hne => ?_,
    fun line hl a b hw _ hne ha hb => ?_⟩
  · have hsame := hedge
    obtain ⟨a, b, hw, -, -, rfl, rfl⟩ := hedge
    have hp := parseLine_of_written hd.limits hl hw
    have hids := (h.ids hn).2 line hl
    rw [hp] at hids
    have hadj := (hd.edges _ _).2 ⟨⟨line, hl, .inl hsame⟩, hne, hids⟩
    obtain ⟨-, l, -, hpush⟩ := (h.adjacent_iff hfirst).1 hadj
    obtain ⟨-, hul, hvl, -⟩ := mem_pushes.1 hpush
    unfold limitOf at hul hvl
    rw [hn] at hul hvl
    exact ⟨Nat.ne_of_lt hul, Nat.ne_of_lt hvl⟩
  · have hp := parseLine_of_written hd.limits hl hw
    have hpush := mem_pushes.2 ⟨hne, ha, hb, .inl hp⟩
    exact ((hd.edges _ _).1 ((h.adjacent_iff hfirst).2
      ⟨(h.lt_of_pushes hl hpush).1, line, hl, hpush⟩)).1

end Built

/-- The constructor does what it should with a file whose header comes first exactly when the file
fails a check or is read as written. -/
theorem ofFile_iff (filename : String) (content : List Char) (hasCommunities : Bool)
    (hfirst : HeaderFirst (getlines content)) :
    Faithful (getlines content)
        (SubCom.ofFile filename (some content) hasCommunities true) ↔
      (∃ line ∈ getlines content, Rejected line) ∨ Plain (getlines content) := by
  rcases ofFile_cases filename content hasCommunities true with
    ⟨hbad, message, he⟩ | ⟨hgood, hcrash, he⟩ | ⟨hgood, hcrash, g, he, hbuilt⟩
  · rw [he]
    exact iff_of_true trivial (.inl hbad)
  · rw [he]
    refine iff_of_false (fun h => h) fun h => ?_
    rcases h with ⟨line, hl, hr⟩ | hplain
    · exact hgood line hl hr
    · exact hplain.community hcrash
  · rw [he]
    refine ⟨fun hd => .inr (hd.plain hbuilt hfirst hcrash), fun h => ?_⟩
    rcases h with ⟨line, hl, hr⟩ | hplain
    · exact absurd hr (hgood line hl)
    · exact hbuilt.describes hfirst hplain

/-- An id of 2^32 is read as 0, a missing number as 0, and a community number can lead the last loop
out of its array. -/
theorem ofFile_misread :
    ¬Faithful (getlines "t 2 1\ne 4294967296 1\n".toList)
      (SubCom.ofFile "graph.txt" (some "t 2 1\ne 4294967296 1\n".toList) true true) ∧
    ¬Faithful (getlines "t 2 1\ne 1\n".toList)
      (SubCom.ofFile "graph.txt" (some "t 2 1\ne 1\n".toList) true true) ∧
    ¬Faithful (getlines "t 1 0\nv 0 0 4294967295\n".toList)
      (SubCom.ofFile "graph.txt" (some "t 1 0\nv 0 0 4294967295\n".toList) true true) := by
  have h1 : SubCom.ofFile "graph.txt" (some "t 2 1\ne 4294967296 1\n".toList) true true =
      .ok ⟨[0, 1, 2], [1, 0], [0, 0], [[0, 1]], 2⟩ := by decide +kernel
  have h2 : SubCom.ofFile "graph.txt" (some "t 2 1\ne 1\n".toList) true true =
      .ok ⟨[0, 1, 2], [1, 0], [0, 0], [[0, 1]], 2⟩ := by decide +kernel
  have h3 : SubCom.ofFile "graph.txt" (some "t 1 0\nv 0 0 4294967295\n".toList) true true =
      .error .outOfRange := by decide +kernel
  rw [h1, h2, h3]
  refine ⟨fun h => ?_, fun h => ?_, fun h => h⟩
  · have hlimit : ¬∀ line ∈ getlines "t 2 1\ne 4294967296 1\n".toList,
        ∀ id ∈ writtenIds line, id ≤ maxVertices := by decide +kernel
    exact hlimit h.limits
  · -- the vertices are adjacent, and no line has two numbers
    obtain ⟨⟨line, hl, hor⟩, -⟩ := (h.edges 1 0).1 ⟨[0], by decide +kernel, mem_cons_self⟩
    have hall : ∀ line ∈ getlines "t 2 1\ne 1\n".toList, (match writtenLine line with
        | .edge a b => decide (a = [] ∨ b = [])
        | _ => true) = true := by decide +kernel
    have hmissing : ∀ u v, ¬IsEdge line u v := by
      intro u v hedge
      obtain ⟨a, b, hw, ha, hb, -, -⟩ := hedge
      have hor := hall line hl
      rw [hw] at hor
      exact (of_decide_eq_true hor).elim ha hb
    rcases hor with hedge | hedge
    · exact hmissing _ _ hedge
    · exact hmissing _ _ hedge

/-- A header, two edges and a repeat of one of them. -/
theorem ofFile_iff_path :
    SubCom.ofFile "graph.txt" (some "t 3 2\ne 0 1\ne 2 1 7\ne 1 0\n".toList) true true =
      .ok ⟨[0, 1, 3, 4], [1, 0, 2, 1], [0, 0, 0], [[0, 1, 2]], 3⟩ ∧
    (Faithful (getlines "t 3 2\ne 0 1\ne 2 1 7\ne 1 0\n".toList)
        (SubCom.ofFile "graph.txt" (some "t 3 2\ne 0 1\ne 2 1 7\ne 1 0\n".toList) true true) ↔
      (∃ line ∈ getlines "t 3 2\ne 0 1\ne 2 1 7\ne 1 0\n".toList, Rejected line) ∨
        Plain (getlines "t 3 2\ne 0 1\ne 2 1 7\ne 1 0\n".toList)) :=
  ⟨by decide +kernel, ofFile_iff _ _ _ (by unfold HeaderFirst; decide +kernel)⟩

end BwGraph
