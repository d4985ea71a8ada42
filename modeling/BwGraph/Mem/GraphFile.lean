import Mathlib.Data.List.Induction
import BwGraph.Lib.Run
import BwGraph.Mem.SubCom

/-
  The file constructor of `mem_sub_com_t` (`mem_g0com.cc`): a text file with an optional header
  line `t <vertices> <edges>`, lines `v <id> <label> <community>` and lines `e <src> <dst>`. The
  numbers are accumulated in their C++ types, so an id is taken modulo 2^32 before it is checked
  against the limit. A number that is missing reads as 0.

  Without a header the adjacency lists grow with the ids, but never above the limit, which is
  itself an id the checks let pass: edges of that vertex are dropped. The progress bars and the
  sizes of the buffers are left out; the lists of different vertices are sorted independently.
-/

namespace BwGraph

open Nat

open Rows
open List

/-! ## Lines -/

def isDigit (c : Char) : Bool := '0' ≤ c && c ≤ '9'

def isBlank (c : Char) : Bool := c = ' ' || c = '\t'

/-- `while (*ptr >= '0' && *ptr <= '9') x = x * 10 + (*ptr++ - '0')`, with `x` of `w` bits. -/
def readNumber (w : Nat) (x : Nat) : List Char → Nat × List Char
  | [] => (x, [])
  | c :: cs =>
    if isDigit c then readNumber w ((x * 10 + (c.toNat - 48)) % 2 ^ w) cs else (x, c :: cs)

/-- `while (*ptr == ' ' || *ptr == '\t') ++ptr`. -/
def skipBlanks (cs : List Char) : List Char := cs.dropWhile isBlank

/-- What the constructor takes from a line. -/
inductive GraphLine
  | skip
  | header (numV numE : Nat)
  | vertex (vertexId communityId : Nat)
  | edge (src dst : Nat)

def GraphLine.isHeader : GraphLine → Bool
  | header _ _ => true
  | _ => false

def GraphLine.isSkip : GraphLine → Bool
  | skip => true
  | _ => false

def parseLine : List Char → GraphLine
  | [] => .skip
  | type :: rest =>
    if type = '#' then .skip
    else
      let ptr := skipBlanks rest
      if type = 't' then
        let numV := readNumber 64 0 ptr
        let numE := readNumber 64 0 (skipBlanks numV.2)
        .header numV.1 numE.1
      else if type = 'v' then
        let vertexId := readNumber 32 0 ptr
        let label := (skipBlanks vertexId.2).dropWhile isDigit
        let communityId := readNumber 32 0 (skipBlanks label)
        .vertex vertexId.1 communityId.1
      else if type = 'e' then
        let src := readNumber 32 0 ptr
        let dst := readNumber 32 0 (skipBlanks src.2)
        .edge src.1 dst.1
      else .skip

/-- `std::getline` until the end of the file. -/
def getlines (content : List Char) : List (List Char) := content.splitOn '\n'

/-! ## The constructor -/

/-- `MAX_VERTICES`. -/
def maxVertices : Nat := 1000000000

/-- `std::vector::resize`. -/
def resize {α : Type} (l : List α) (n : Nat) (x : α) : List α :=
  l.take n ++ List.replicate (n - l.length) x

/-- The local variables of the constructor while it reads the file. -/
structure Loading where
  adjList : List (List VId)
  tempCommunities : List Nat
  maxVertexId : Nat
  maxCommunityId : Nat
  numVFromHeader : Nat
  headerParsed : Bool
  graphAllocated : Bool

def Loading.start : Loading := ⟨[], [], 0, 0, 0, false, false⟩

/-- The largest id so far; not counted with a header. -/
def Loading.trackVertex (s : Loading) (id : Nat) : Loading :=
  if s.graphAllocated then s else { s with maxVertexId := max s.maxVertexId id }

/-- The growth without a header, by an estimate that is capped. -/
def Loading.grow (s : Loading) (requiredSize estimatedSize : Nat) : Loading :=
  if s.graphAllocated = false ∧ s.adjList.length < requiredSize then
    { s with
      adjList := resize s.adjList (min estimatedSize maxVertices) []
      tempCommunities := resize s.tempCommunities (min estimatedSize maxVertices) 0 }
  else s

/-- `adj_list[u].push_back(v)`. -/
def pushBack (adjList : List (List VId)) (u v : VId) : List (List VId) :=
  adjList.set u (adjList.getD u [] ++ [v])

/-- A vertex that passed the check. -/
def Loading.vertexLine (hasCommunities : Bool) (s : Loading) (vertexId communityId : Nat) :
    Loading :=
  let s := s.trackVertex vertexId
  let s := { s with maxCommunityId := max s.maxCommunityId communityId }
  let s := s.grow (vertexId + 1) (vertexId + 1000000)
  if hasCommunities = true ∧ vertexId < s.adjList.length then
    { s with tempCommunities := s.tempCommunities.set vertexId communityId }
  else s

/-- An edge that passed the check; it is stored in both directions. -/
def Loading.edgeLine (s : Loading) (src dst : Nat) : Loading :=
  let s := s.trackVertex (max src dst)
  let requiredSize := max src dst + 1
  let s := s.grow requiredSize (requiredSize + 1000000)
  if src < s.adjList.length ∧ dst < s.adjList.length ∧ src ≠ dst then
    { s with adjList := pushBack (pushBack s.adjList src dst) dst src }
  else s

/-- One line. -/
def Loading.line (hasCommunities : Bool) (s : Loading) (line : List Char) :
    Except MemError Loading :=
  match parseLine line with
  | .skip => .ok s
  | .header numV _ =>
    if maxVertices < numV then .error (.runtimeError "Graph size exceeds limits")
    else
      .ok { s with
        numVFromHeader := numV
        headerParsed := true
        adjList := resize s.adjList numV []
        tempCommunities := resize s.tempCommunities numV 0
        graphAllocated := true }
  | .vertex vertexId communityId =>
    if maxVertices < vertexId then .error (.runtimeError "Vertex ID exceeds limits")
    else .ok (s.vertexLine hasCommunities vertexId communityId)
  | .edge src dst =>
    if maxVertices < src ∨ maxVertices < dst then
      .error (.runtimeError "Edge vertex ID exceeds limits")
    else .ok (s.edgeLine src dst)

/-- `community_structure_tmp[communities[i]].push_back(i)` for all vertices. -/
def buildCommunities (communities : List Nat) (numCommunities : Nat) :
    Except MemError (List (List VId)) :=
  (List.range communities.length).foldlM (fun groups i =>
    if communities.getD i 0 < groups.length then
      .ok (pushBack groups (communities.getD i 0) i)
    else .error .outOfRange) (List.replicate numCommunities [])

/-- From the end of the file on. -/
def Loading.finish (deduplication : Bool) (s : Loading) : Except MemError SubCom := do
  let numVertices := if s.headerParsed then s.numVFromHeader else (s.maxVertexId + 1) % 2 ^ 32
  let adjList := resize s.adjList numVertices []
  let communities := resize s.tempCommunities numVertices 0
  let adjList := if deduplication then
      adjList.map fun l => unique (l.insertionSort (· ≤ ·))
    else adjList
  let offsets := starts (adjList.map List.length)
  let neighborList := fillRows offsets (fun v => adjList.getD v []) (List.range numVertices)
    (List.replicate (offsets.getD numVertices 0) 0)
  let communityStructure ← buildCommunities communities ((s.maxCommunityId + 1) % 2 ^ 32)
  return ⟨offsets, neighborList, communities, communityStructure, numVertices⟩

/-- `mem_sub_com_t(filename, has_communities, _, deduplication_handle)`; no content stands for a
file that cannot be opened. -/
def SubCom.ofFile (filename : String) (content : Option (List Char))
    (hasCommunities deduplication : Bool) : Except MemError SubCom :=
  match content with
  | none => .error (.runtimeError ("Cannot open file: " ++ filename))
  | some content => do
    let s ← (getlines content).foldlM (Loading.line hasCommunities) Loading.start
    s.finish deduplication

/-! ## Lines as written -/

/-- A line with its numbers as they are written. -/
inductive WrittenLine
  | skip
  | header (numV numE : List Char)
  | vertex (vertexId communityId : List Char)
  | edge (src dst : List Char)

def afterNumber (cs : List Char) : List Char := skipBlanks (cs.dropWhile isDigit)

def writtenLine : List Char → WrittenLine
  | [] => .skip
  | type :: rest =>
    if type = '#' then .skip
    else
      let ptr := skipBlanks rest
      if type = 't' then .header (ptr.takeWhile isDigit) ((afterNumber ptr).takeWhile isDigit)
      else if type = 'v' then
        .vertex (ptr.takeWhile isDigit) ((afterNumber (afterNumber ptr)).takeWhile isDigit)
      else if type = 'e' then .edge (ptr.takeWhile isDigit) ((afterNumber ptr).takeWhile isDigit)
      else .skip

/-- The number a string of digits stands for; none at all reads as 0. -/
def numberValue (ds : List Char) : Nat := ds.foldl (fun x c => x * 10 + (c.toNat - 48)) 0

/-- The numbers in the widths of their variables. -/
def WrittenLine.stored : WrittenLine → GraphLine
  | .skip => .skip
  | .header numV numE => .header (numberValue numV % 2 ^ 64) (numberValue numE % 2 ^ 64)
  | .vertex v c => .vertex (numberValue v % 2 ^ 32) (numberValue c % 2 ^ 32)
  | .edge src dst => .edge (numberValue src % 2 ^ 32) (numberValue dst % 2 ^ 32)

theorem foldl_digits_mod (m : Nat) (ds : List Char) (x : Nat) :
    ds.foldl (fun x c => x * 10 + (c.toNat - 48)) (x % m) % m =
      ds.foldl (fun x c => x * 10 + (c.toNat - 48)) x % m := by
  induction ds generalizing x with
  | nil => exact mod_mod x m
  | cons c ds ih =>
    rw [foldl_cons, foldl_cons, ← ih (x % m * 10 + _), ← ih (x * 10 + _)]
    congr 2
    rw [add_mod, mul_mod, mod_mod, ← mul_mod, ← add_mod]

/-- The loop reads the digits and stops behind them. -/
theorem readNumber_eq (w : Nat) {x : Nat} (hx : x < 2 ^ w) (cs : List Char) :
    readNumber w x cs =
      ((cs.takeWhile isDigit).foldl (fun x c => x * 10 + (c.toNat - 48)) x % 2 ^ w,
        cs.dropWhile isDigit) := by
  induction cs generalizing x with
  | nil =>
    show (x, []) = (x % 2 ^ w, [])
    rw [mod_eq_of_lt hx]
  | cons c cs ih =>
    unfold readNumber
    rw [takeWhile_cons, dropWhile_cons]
    split_ifs with hc
    · rw [ih (mod_lt _ (Nat.two_pow_pos w)), foldl_cons, foldl_digits_mod]
    · show (x, c :: cs) = (x % 2 ^ w, c :: cs)
      rw [mod_eq_of_lt hx]

theorem readNumber_zero (w : Nat) (cs : List Char) :
    readNumber w 0 cs = (numberValue (cs.takeWhile isDigit) % 2 ^ w, cs.dropWhile isDigit) :=
  readNumber_eq w (Nat.two_pow_pos w) cs

/-- The constructor reads the numbers as written, each modulo its width. -/
theorem parseLine_eq (line : List Char) : parseLine line = (writtenLine line).stored := by
  rcases line with _ | ⟨type, rest⟩
  · rfl
  unfold parseLine writtenLine
  simp only [readNumber_zero]
  split_ifs <;> rfl

/-! ## Rejected lines -/

/-- The checks a line can fail. -/
def Rejected (line : List Char) : Prop :=
  match parseLine line with
  | .skip => False
  | .header numV _ => maxVertices < numV
  | .vertex vertexId _ => maxVertices < vertexId
  | .edge src dst => maxVertices < src ∨ maxVertices < dst

theorem line_ok_iff (hasCommunities : Bool) (s : Loading) (line : List Char) :
    (∃ s', s.line hasCommunities line = .ok s') ↔ ¬Rejected line := by
  unfold Loading.line Rejected
  rcases parseLine line with _ | ⟨numV, numE⟩ | ⟨v, c⟩ | ⟨src, dst⟩
  · exact iff_of_true ⟨s, rfl⟩ not_false
  all_goals
    dsimp only
    split_ifs with h
    · exact iff_of_false (fun hok => nomatch hok.choose_spec) (not_not.2 h)
    · exact iff_of_true ⟨_, rfl⟩ h

variable {hasCommunities : Bool}

theorem line_error {s : Loading} {line : List Char} {e : MemError}
    (h : s.line hasCommunities line = .error e) : ∃ message, e = .runtimeError message := by
  unfold Loading.line at h
  rcases hp : parseLine line with _ | ⟨numV, numE⟩ | ⟨v, c⟩ | ⟨src, dst⟩
  · rw [hp] at h
    exact nomatch h
  all_goals
    rw [hp] at h
    dsimp only at h
    split_ifs at h
    exact ⟨_, (Except.error.inj h).symm⟩

/-! ## What the lines so far leave -/

/-- The number in the last header. -/
def lastHeader (lines : List (List Char)) : Option Nat :=
  lines.foldl (fun n line => match parseLine line with
    | .header numV _ => some numV
    | _ => n) none

/-- Ids from here on are not stored. -/
def limitOf (lines : List (List Char)) : Nat := (lastHeader lines).getD maxVertices

/-- What a line adds to the list of `u`. -/
def pushes (limit u : Nat) (line : List Char) : List VId :=
  match parseLine line with
  | .edge src dst =>
    if src < limit ∧ dst < limit ∧ src ≠ dst then
      (if u = src then [dst] else []) ++ if u = dst then [src] else []
    else []
  | _ => []

/-- The list of `u`, line by line: a header cuts off the vertices from its number on. -/
def recordLine (u : Nat) (st : Nat × List VId) (line : List Char) : Nat × List VId :=
  match parseLine line with
  | .header numV _ => (numV, if u < numV then st.2 else [])
  | _ => (st.1, st.2 ++ pushes st.1 u line)

/-- The neighbours of `u` in the order of the file. -/
def recorded (lines : List (List Char)) (u : Nat) : List VId :=
  (lines.foldl (recordLine u) (maxVertices, [])).2

variable (lines : List (List Char)) (line : List Char)

theorem lastHeader_concat :
    lastHeader (lines ++ [line]) = match parseLine line with
      | .header numV _ => some numV
      | _ => lastHeader lines := by
  unfold lastHeader
  rw [foldl_concat]

theorem fst_foldl_recordLine (u : Nat) (lines : List (List Char)) :
    (lines.foldl (recordLine u) (maxVertices, [])).1 = limitOf lines := by
  induction lines using List.reverseRecOn with
  | nil => rfl
  | append_singleton lines line ih =>
    unfold limitOf at ih ⊢
    rw [foldl_concat, lastHeader_concat]
    unfold recordLine
    rcases parseLine line with _ | ⟨numV, numE⟩ | ⟨v, c⟩ | ⟨src, dst⟩
    · exact ih
    · rfl
    · exact ih
    · exact ih

theorem recorded_concat (u : Nat) :
    recorded (lines ++ [line]) u = match parseLine line with
      | .header numV _ => if u < numV then recorded lines u else []
      | _ => recorded lines u ++ pushes (limitOf lines) u line := by
  unfold recorded
  rw [foldl_concat, ← fst_foldl_recordLine u]
  unfold recordLine
  rcases parseLine line with _ | ⟨numV, numE⟩ | ⟨v, c⟩ | ⟨src, dst⟩ <;> rfl

/-! ## The state after a line -/

variable {α : Type} (l : List α)

theorem length_resize (n : Nat) (x : α) : (resize l n x).length = n := by
  unfold resize
  rw [length_append, length_take, length_replicate]
  omega

theorem getD_resize (n u : Nat) (x : α) :
    (resize l n x).getD u x = if u < n then l.getD u x else x := by
  unfold resize
  simp only [getD_eq_getElem?_getD]
  by_cases hl : u < (l.take n).length
  · rw [getElem?_append_left hl, getElem?_take]
    rw [length_take] at hl
    rw [if_pos (by omega), if_pos (by omega)]
  · rw [getElem?_append_right (by omega), getElem?_replicate]
    rw [length_take] at hl
    have hnone : u < n → l[u]? = none := fun hu => getElem?_eq_none (by omega)
    split_ifs with h1 h2 h2
    · rw [hnone h2]
      rfl
    · rfl
    · rw [hnone h2]
    · rfl

theorem mem_resize {α : Type} {l : List α} {n : Nat} {x y : α} (h : y ∈ resize l n x) :
    y ∈ l ∨ y = x := by
  rcases mem_append.1 h with h | h
  · exact .inl (mem_of_mem_take h)
  · exact .inr (eq_of_mem_replicate h)

/-- What the growth leaves as it was, and what it makes room for. -/
structure Loading.Grown (s s' : Loading) (requiredSize : Nat) : Prop where
  kept : s'.maxVertexId = s.maxVertexId ∧ s'.maxCommunityId = s.maxCommunityId ∧
    s'.numVFromHeader = s.numVFromHeader ∧ s'.headerParsed = s.headerParsed ∧
    s'.graphAllocated = s.graphAllocated
  rows : ∀ u, s'.adjList.getD u [] = s.adjList.getD u []
  lengths : s'.tempCommunities.length = s'.adjList.length
  communities : ∀ c ∈ s'.tempCommunities, c ∈ s.tempCommunities ∨ c = 0
  allocated : s.graphAllocated = true → s'.adjList.length = s.adjList.length
  capped : s.graphAllocated = false → s'.adjList.length ≤ maxVertices ∧
    ∀ id < requiredSize, id < maxVertices → id < s'.adjList.length

theorem Loading.grow_grown {s : Loading} {requiredSize estimatedSize : Nat}
    (hest : requiredSize ≤ estimatedSize) (hlen : s.tempCommunities.length = s.adjList.length)
    (hcap : s.graphAllocated = false → s.adjList.length ≤ maxVertices) :
    s.Grown (s.grow requiredSize estimatedSize) requiredSize := by
  unfold Loading.grow
  split_ifs with hgrow
  · obtain ⟨halloc, hlt⟩ := hgrow
    have hcap := hcap halloc
    refine ⟨⟨rfl, rfl, rfl, rfl, rfl⟩, fun u => ?_, ?_, fun c hc => mem_resize hc, fun h => ?_,
      fun _ => ⟨?_, fun id hid hmax => ?_⟩⟩
    · show (resize s.adjList (min estimatedSize maxVertices) []).getD u [] = _
      rw [getD_resize]
      split_ifs with hu
      · rfl
      · rw [getD_eq_default _ _ (by omega)]
    · exact (length_resize _ _ _).trans (length_resize _ _ _).symm
    · rw [halloc] at h
      exact nomatch h
    · show (resize _ _ _).length ≤ _
      rw [length_resize]
      exact Nat.min_le_right _ _
    · show id < (resize _ _ _).length
      rw [length_resize]
      omega
  · refine ⟨⟨rfl, rfl, rfl, rfl, rfl⟩, fun u => rfl, hlen, fun c hc => .inl hc, fun _ => rfl,
      fun h => ⟨hcap h, fun id hid _ => ?_⟩⟩
    rw [not_and, not_lt] at hgrow
    exact Nat.lt_of_lt_of_le hid (hgrow h)

theorem length_pushBack (adjList : List (List VId)) (u v : VId) :
    (pushBack adjList u v).length = adjList.length := length_set

theorem getD_pushBack {adjList : List (List VId)} {u : VId} (hu : u < adjList.length) (v w : VId) :
    (pushBack adjList u v).getD w [] =
      if w = u then adjList.getD u [] ++ [v] else adjList.getD w [] := by
  unfold pushBack
  simp only [getD_eq_getElem?_getD]
  split_ifs with h
  · rw [h, getElem?_set_self hu]
    rfl
  · rw [getElem?_set_ne (Ne.symm h)]

/-- The state after the lines so far. -/
structure Loading.Read (lines : List (List Char)) (s : Loading) : Prop where
  alloc : s.graphAllocated = (lastHeader lines).isSome
  parsed : s.headerParsed = (lastHeader lines).isSome
  num : ∀ n, lastHeader lines = some n → s.numVFromHeader = n ∧ s.adjList.length = n
  capped : lastHeader lines = none → s.adjList.length ≤ maxVertices ∧ s.maxVertexId ≤ maxVertices
  ids : lastHeader lines = none → ∀ line ∈ lines, match parseLine line with
    | .vertex vertexId _ => vertexId ≤ s.maxVertexId
    | .edge src dst => src ≤ s.maxVertexId ∧ dst ≤ s.maxVertexId
    | _ => True
  rows : ∀ u, s.adjList.getD u [] = recorded lines u
  lengths : s.tempCommunities.length = s.adjList.length
  communities : ∀ c ∈ s.tempCommunities, c ≤ s.maxCommunityId
  maxCommunity : (∀ line ∈ lines, ∀ v c, parseLine line = .vertex v c → c ≤ s.maxCommunityId) ∧
    (s.maxCommunityId = 0 ∨ ∃ line ∈ lines, ∃ v, parseLine line = .vertex v s.maxCommunityId)

theorem Loading.read_start : Loading.Read [] Loading.start := by
  refine ⟨rfl, rfl, fun n h => (nomatch h), fun _ => ⟨Nat.zero_le _, Nat.zero_le _⟩,
    fun _ line hl => absurd hl not_mem_nil, fun u => rfl, rfl,
    fun c hc => absurd hc not_mem_nil,
    ⟨fun line hl => absurd hl not_mem_nil, .inl rfl⟩⟩

section Read

variable {lines : List (List Char)} {s : Loading} {line : List Char}

/-- A line that is no header. -/
theorem Loading.Read.concat (h : s.Read lines) (hline : ∀ n m, parseLine line ≠ .header n m)
    {s' : Loading} (hkept : s'.graphAllocated = s.graphAllocated ∧
      s'.headerParsed = s.headerParsed ∧ s'.numVFromHeader = s.numVFromHeader)
    (hlen : s.graphAllocated = true → s'.adjList.length = s.adjList.length)
    (hcap : s.graphAllocated = false → s'.adjList.length ≤ maxVertices ∧
      s'.maxVertexId ≤ maxVertices ∧ s.maxVertexId ≤ s'.maxVertexId ∧ match parseLine line with
        | .vertex vertexId _ => vertexId ≤ s'.maxVertexId
        | .edge src dst => src ≤ s'.maxVertexId ∧ dst ≤ s'.maxVertexId
        | _ => True)
    (hrows : ∀ u, s'.adjList.getD u [] = s.adjList.getD u [] ++ pushes (limitOf lines) u line)
    (hlengths : s'.tempCommunities.length = s'.adjList.length)
    (hcommunities : ∀ c ∈ s'.tempCommunities, c ≤ s'.maxCommunityId)
    (hmax : s.maxCommunityId ≤ s'.maxCommunityId ∧
      (∀ v c, parseLine line = .vertex v c → c ≤ s'.maxCommunityId) ∧
      (s'.maxCommunityId = s.maxCommunityId ∨
        ∃ v, parseLine line = .vertex v s'.maxCommunityId)) : s'.Read (lines ++ [line]) := by
  have hheader : lastHeader (lines ++ [line]) = lastHeader lines := by
    rw [lastHeader_concat]
    rcases hp : parseLine line with _ | ⟨n, m⟩ | _ | _
    · rfl
    · exact absurd hp (hline n m)
    · rfl
    · rfl
  have hnot : lastHeader lines = none → s.graphAllocated = false := by
    intro hnone
    rw [h.alloc, hnone]
    rfl
  refine ⟨?_, ?_, fun n hn => ?_, fun hnone => ?_, fun hnone l hl => ?_, fun u => ?_, hlengths,
    hcommunities, fun l hl v c hp => ?_, ?_⟩
  · rw [hheader, hkept.1, h.alloc]
  · rw [hheader, hkept.2.1, h.parsed]
  · rw [hheader] at hn
    obtain ⟨hnum, hsize⟩ := h.num n hn
    have halloc : s.graphAllocated = true := by
      rw [h.alloc, hn]
      rfl
    exact ⟨hkept.2.2.trans hnum, (hlen halloc).trans hsize⟩
  · rw [hheader] at hnone
    obtain ⟨h1, h2, -⟩ := hcap (hnot hnone)
    exact ⟨h1, h2⟩
  · rw [hheader] at hnone
    obtain ⟨-, -, hmono, hnew⟩ := hcap (hnot hnone)
    rcases mem_append.1 hl with hl | hl
    · have hold := h.ids hnone l hl
      rcases hp : parseLine l with _ | ⟨n, m⟩ | ⟨v, c⟩ | ⟨src, dst⟩
      · trivial
      · trivial
      · rw [hp] at hold
        exact Nat.le_trans hold hmono
      · rw [hp] at hold
        exact ⟨Nat.le_trans hold.1 hmono, Nat.le_trans hold.2 hmono⟩
    · rw [mem_singleton.1 hl]
      exact hnew
  · rw [hrows, h.rows, recorded_concat]
    rcases hp : parseLine line with _ | ⟨n, m⟩ | _ | _
    · rfl
    · exact absurd hp (hline n m)
    · rfl
    · rfl
  · rcases mem_append.1 hl with hl | hl
    · exact (h.maxCommunity.1 l hl v c hp).trans hmax.1
    · rw [mem_singleton.1 hl] at hp
      exact hmax.2.1 v c hp
  · rcases hmax.2.2 with he | ⟨v, hp⟩
    · rw [he]
      rcases h.maxCommunity.2 with hz | ⟨l, hl, v, hp⟩
      · exact .inl hz
      · exact .inr ⟨l, mem_append_left _ hl, v, hp⟩
    · exact .inr ⟨line, mem_append_right _ mem_cons_self, v, hp⟩

theorem pushes_of_not_edge {limit u : Nat} (h : ∀ a b, parseLine line ≠ .edge a b) :
    pushes limit u line = [] := by
  unfold pushes
  rcases hp : parseLine line with _ | _ | _ | ⟨a, b⟩
  · rfl
  · rfl
  · rfl
  · exact absurd hp (h a b)

theorem Loading.Read.skip (h : s.Read lines) (hline : parseLine line = .skip) :
    s.Read (lines ++ [line]) := by
  refine h.concat (fun n m => by rw [hline]; exact nofun) ⟨rfl, rfl, rfl⟩ (fun _ => rfl)
    (fun halloc => ?_) (fun u => ?_) h.lengths h.communities
    ⟨Nat.le_refl _, fun v c hp => ?_, .inl rfl⟩
  · rw [h.alloc, Option.isSome_eq_false_iff, Option.isNone_iff_eq_none] at halloc
    obtain ⟨h1, h2⟩ := h.capped halloc
    refine ⟨h1, h2, Nat.le_refl _, ?_⟩
    rw [hline]
    trivial
  · rw [pushes_of_not_edge fun a b => by rw [hline]; exact nofun]
    exact (append_nil _).symm
  · rw [hline] at hp
    exact nomatch hp

theorem Loading.Read.header (h : s.Read lines) {numV numE : Nat}
    (hline : parseLine line = .header numV numE) :
    Loading.Read (lines ++ [line]) { s with
      numVFromHeader := numV
      headerParsed := true
      adjList := resize s.adjList numV []
      tempCommunities := resize s.tempCommunities numV 0
      graphAllocated := true } := by
  have hheader : lastHeader (lines ++ [line]) = some numV := by
    rw [lastHeader_concat, hline]
  refine ⟨by rw [hheader]; rfl, by rw [hheader]; rfl, fun n hn => ?_, fun hnone => ?_,
    fun hnone => ?_, fun u => ?_, ?_, fun c hc => ?_, fun l hl v c hp => ?_, ?_⟩
  · rw [hheader] at hn
    exact ⟨Option.some.inj hn, (length_resize _ _ _).trans (Option.some.inj hn)⟩
  · rw [hheader] at hnone
    exact nomatch hnone
  · rw [hheader] at hnone
    exact nomatch hnone
  · show (resize s.adjList numV []).getD u [] = _
    rw [getD_resize, h.rows, recorded_concat, hline]
  · exact (length_resize _ _ _).trans (length_resize _ _ _).symm
  · rcases mem_resize hc with hc | rfl
    · exact h.communities c hc
    · exact Nat.zero_le _
  · rcases mem_append.1 hl with hl | hl
    · exact h.maxCommunity.1 l hl v c hp
    · rw [mem_singleton.1 hl, hline] at hp
      exact nomatch hp
  · rcases h.maxCommunity.2 with hz | ⟨l, hl, v, hp⟩
    · exact .inl hz
    · exact .inr ⟨l, mem_append_left _ hl, v, hp⟩

/-- The fields after an id is tracked. -/
theorem Loading.trackVertex_fields (s : Loading) (id : Nat) :
    (s.trackVertex id).adjList = s.adjList ∧
    (s.trackVertex id).tempCommunities = s.tempCommunities ∧
    (s.trackVertex id).maxCommunityId = s.maxCommunityId ∧
    (s.trackVertex id).numVFromHeader = s.numVFromHeader ∧
    (s.trackVertex id).headerParsed = s.headerParsed ∧
    (s.trackVertex id).graphAllocated = s.graphAllocated ∧
    (s.graphAllocated = false → (s.trackVertex id).maxVertexId = max s.maxVertexId id) := by
  unfold Loading.trackVertex
  split_ifs with h
  · refine ⟨rfl, rfl, rfl, rfl, rfl, rfl, fun hf => ?_⟩
    rw [h] at hf
    exact nomatch hf
  · exact ⟨rfl, rfl, rfl, rfl, rfl, rfl, fun _ => rfl⟩

/-- What is not allocated is capped. -/
theorem Loading.Read.capped_of (h : s.Read lines) (halloc : s.graphAllocated = false) :
    s.adjList.length ≤ maxVertices ∧ s.maxVertexId ≤ maxVertices := by
  rw [h.alloc, Option.isSome_eq_false_iff, Option.isNone_iff_eq_none] at halloc
  exact h.capped halloc

variable {hasCommunities : Bool}

theorem Loading.Read.vertexLine (h : s.Read lines) {id c : Nat}
    (hline : parseLine line = .vertex id c) (hid : id ≤ maxVertices) :
    (s.vertexLine hasCommunities id c).Read (lines ++ [line]) := by
  obtain ⟨hadj, htemp, hcom, hnum, hparsed, halloc, hmaxid⟩ := s.trackVertex_fields id
  set s1 : Loading := { s.trackVertex id with
    maxCommunityId := max (s.trackVertex id).maxCommunityId c } with hs1
  have hgrown : s1.Grown (s1.grow (id + 1) (id + 1000000)) (id + 1) := by
    refine Loading.grow_grown (by omega) ?_ fun hf => ?_
    · show (s.trackVertex id).tempCommunities.length = (s.trackVertex id).adjList.length
      rw [htemp, hadj]
      exact h.lengths
    · show (s.trackVertex id).adjList.length ≤ _
      rw [hadj]
      exact (h.capped_of (halloc.symm.trans hf)).1
  set s2 := s1.grow (id + 1) (id + 1000000) with hs2
  obtain ⟨⟨kmaxid, kcom, knum, kparsed, kalloc⟩, krows, klen, kcomm, kallocated, kcapped⟩ := hgrown
  -- setting the community of the vertex changes one entry of one list
  have hset : ∃ temp, s.vertexLine hasCommunities id c = { s2 with tempCommunities := temp } ∧
      temp.length = s2.tempCommunities.length ∧
      ∀ x ∈ temp, x ∈ s2.tempCommunities ∨ x = c := by
    show ∃ temp, (if hasCommunities = true ∧ id < s2.adjList.length then
      { s2 with tempCommunities := s2.tempCommunities.set id c } else s2) = _ ∧ _
    split_ifs
    · exact ⟨_, rfl, length_set, fun x hx => mem_or_eq_of_mem_set hx⟩
    · exact ⟨_, rfl, rfl, fun x hx => .inl hx⟩
  obtain ⟨temp, hs', htlen, htmem⟩ := hset
  rw [hs']
  have hs1com : s1.maxCommunityId = max s.maxCommunityId c := by rw [← hcom]
  refine h.concat (fun n m => by rw [hline]; exact nofun)
    ⟨kalloc.trans halloc, kparsed.trans hparsed, knum.trans hnum⟩ (fun hf => ?_) (fun hf => ?_)
    (fun u => ?_) (htlen.trans klen) (fun x hx => ?_) ⟨?_, fun v c' hp => ?_, ?_⟩
  · exact (kallocated (halloc.trans hf)).trans (congrArg List.length hadj)
  · have hid' : s2.maxVertexId = max s.maxVertexId id := kmaxid.trans (hmaxid hf)
    have hcapped := (h.capped_of hf).2
    refine ⟨(kcapped (halloc.trans hf)).1, ?_, ?_, ?_⟩
    · show s2.maxVertexId ≤ _
      omega
    · show _ ≤ s2.maxVertexId
      omega
    · rw [hline]
      show id ≤ s2.maxVertexId
      omega
  · rw [pushes_of_not_edge fun a b => by rw [hline]; exact nofun, append_nil]
    exact (krows u).trans (congrArg (fun l => List.getD l u []) hadj)
  · show x ≤ s2.maxCommunityId
    rw [kcom, hs1com]
    rcases htmem x hx with hx | rfl
    · rcases kcomm x hx with hx | rfl
      · have hold := h.communities x (by rw [← htemp]; exact hx)
        omega
      · omega
    · omega
  · show _ ≤ s2.maxCommunityId
    rw [kcom, hs1com]
    omega
  · show c' ≤ s2.maxCommunityId
    rw [hline] at hp
    obtain ⟨-, rfl⟩ := GraphLine.vertex.inj hp
    rw [kcom, hs1com]
    omega
  · show s2.maxCommunityId = _ ∨ ∃ v, parseLine line = .vertex v s2.maxCommunityId
    rw [kcom, hs1com, hline]
    rcases Nat.le_total s.maxCommunityId c with hle | hle
    · exact .inr ⟨id, by rw [Nat.max_eq_right hle]⟩
    · exact .inl (Nat.max_eq_left hle)

/-- There is room for exactly the ids below the limit. -/
theorem Loading.Read.room (h : s.Read lines) {s1 s2 : Loading} {requiredSize : Nat}
    (hgrown : s1.Grown s2 requiredSize) (hadj : s1.adjList = s.adjList)
    (halloc : s1.graphAllocated = s.graphAllocated) {id : Nat} (hid : id < requiredSize) :
    id < s2.adjList.length ↔ id < limitOf lines := by
  unfold limitOf
  rcases hn : lastHeader lines with _ | n
  · have hf : s1.graphAllocated = false := by
      rw [halloc, h.alloc, hn]
      rfl
    obtain ⟨hle, hroom⟩ := hgrown.capped hf
    exact ⟨fun hlt => Nat.lt_of_lt_of_le hlt hle, hroom id hid⟩
  · have ht : s1.graphAllocated = true := by
      rw [halloc, h.alloc, hn]
      rfl
    rw [hgrown.allocated ht, hadj, (h.num n hn).2]
    rfl

/-- The two lists an edge is put on. -/
theorem getD_pushBack_pushBack {adjList : List (List VId)} {src dst : VId}
    (hs : src < adjList.length) (hd : dst < adjList.length) (hne : src ≠ dst) (u : VId) :
    (pushBack (pushBack adjList src dst) dst src).getD u [] =
      adjList.getD u [] ++ ((if u = src then [dst] else []) ++ if u = dst then [src] else []) := by
  rw [getD_pushBack (by rw [length_pushBack]; exact hd), getD_pushBack hs, getD_pushBack hs,
    if_neg (Ne.symm hne)]
  by_cases hus : u = src
  · subst hus
    rw [if_neg hne, if_pos rfl, if_pos rfl, if_neg hne, append_nil]
  · rw [if_neg hus, if_neg hus, nil_append]
    split_ifs with hud
    · rw [hud]
    · exact (append_nil _).symm

theorem Loading.Read.edgeLine (h : s.Read lines) {src dst : Nat}
    (hline : parseLine line = .edge src dst) (hsrc : src ≤ maxVertices) (hdst : dst ≤ maxVertices) :
    (s.edgeLine src dst).Read (lines ++ [line]) := by
  obtain ⟨hadj, htemp, hcom, hnum, hparsed, halloc, hmaxid⟩ := s.trackVertex_fields (max src dst)
  set s1 := s.trackVertex (max src dst)
  have hgrown : s1.Grown (s1.grow (max src dst + 1) (max src dst + 1 + 1000000))
      (max src dst + 1) := by
    refine Loading.grow_grown (by omega) ?_ fun hf => ?_
    · rw [htemp, hadj]
      exact h.lengths
    · rw [hadj]
      exact (h.capped_of (halloc.symm.trans hf)).1
  have hroomSrc := h.room hgrown hadj halloc (show src < max src dst + 1 by omega)
  have hroomDst := h.room hgrown hadj halloc (show dst < max src dst + 1 by omega)
  set s2 := s1.grow (max src dst + 1) (max src dst + 1 + 1000000)
  obtain ⟨⟨kmaxid, kcom, knum, kparsed, kalloc⟩, krows, klen, kcomm, kallocated, kcapped⟩ := hgrown
  -- what the two `push_back` do to the lists
  have hpush : ∃ adj, s.edgeLine src dst = { s2 with adjList := adj } ∧
      adj.length = s2.adjList.length ∧
      ∀ u, adj.getD u [] = s2.adjList.getD u [] ++ pushes (limitOf lines) u line := by
    show ∃ adj, (if src < s2.adjList.length ∧ dst < s2.adjList.length ∧ src ≠ dst then
      { s2 with adjList := pushBack (pushBack s2.adjList src dst) dst src } else s2) = _ ∧ _
    unfold pushes
    rw [hline]
    dsimp only
    simp only [hroomSrc, hroomDst]
    split_ifs with hstore
    · refine ⟨_, rfl, ?_, fun u => ?_⟩
      · rw [length_pushBack, length_pushBack]
      · exact getD_pushBack_pushBack (hroomSrc.2 hstore.1) (hroomDst.2 hstore.2.1) hstore.2.2 u
    · exact ⟨_, rfl, rfl, fun u => (append_nil _).symm⟩
  obtain ⟨adj, hs', halen, harows⟩ := hpush
  rw [hs']
  refine h.concat (fun n m => by rw [hline]; exact nofun)
    ⟨kalloc.trans halloc, kparsed.trans hparsed, knum.trans hnum⟩ (fun hf => ?_) (fun hf => ?_)
    (fun u => ?_) (klen.trans halen.symm) (fun x hx => ?_) ⟨?_, fun v c hp => ?_, .inl ?_⟩
  · exact halen.trans ((kallocated (halloc.trans hf)).trans (congrArg List.length hadj))
  · have hid : s2.maxVertexId = max s.maxVertexId (max src dst) := kmaxid.trans (hmaxid hf)
    have hcapped := (h.capped_of hf).2
    refine ⟨?_, ?_, ?_, ?_⟩
    · exact halen.le.trans (kcapped (halloc.trans hf)).1
    · show s2.maxVertexId ≤ _
      omega
    · show _ ≤ s2.maxVertexId
      omega
    · rw [hline]
      show src ≤ s2.maxVertexId ∧ dst ≤ s2.maxVertexId
      omega
  · exact (harows u).trans (congrArg (· ++ _)
      ((krows u).trans (congrArg (fun l => List.getD l u []) hadj)))
  · show x ≤ s2.maxCommunityId
    rw [kcom, hcom]
    rcases kcomm x hx with hx | rfl
    · exact h.communities x (by rw [← htemp]; exact hx)
    · omega
  · exact (kcom.trans hcom).ge
  · rw [hline] at hp
    exact nomatch hp
  · exact kcom.trans hcom

/-- A line that passes its checks. -/
theorem Loading.Read.step (h : s.Read lines) {s' : Loading}
    (hok : s.line hasCommunities line = .ok s') : s'.Read (lines ++ [line]) := by
  unfold Loading.line at hok
  rcases hp : parseLine line with _ | ⟨numV, numE⟩ | ⟨v, c⟩ | ⟨src, dst⟩
  · rw [hp] at hok
    obtain rfl := Except.ok.inj hok
    exact h.skip hp
  all_goals
    rw [hp] at hok
    dsimp only at hok
    split_ifs at hok with hbad
    obtain rfl := Except.ok.inj hok
  · exact h.header hp
  · exact h.vertexLine hp (Nat.le_of_not_lt hbad)
  · rw [not_or, not_lt, not_lt] at hbad
    exact h.edgeLine hp hbad.1 hbad.2

end Read

/-- The state at the end of the file. -/
theorem read_lines {lines : List (List Char)} {s : Loading}
    (h : lines.foldlM (Loading.line hasCommunities) Loading.start = .ok s) : s.Read lines :=
  Except.foldlM_inv (fun lines s => Loading.Read lines s) (fun _ _ _ _ h hok => h.step hok)
    Loading.read_start h

/-! ## The result -/

/-- The last loop writes outside its array exactly when a community has no entry. -/
theorem buildCommunities_iff (communities : List Nat) (num : Nat) :
    ((∃ groups, buildCommunities communities num = .ok groups) ↔ ∀ c ∈ communities, c < num) ∧
      ∀ e, buildCommunities communities num = .error e → e = .outOfRange := by
  have hloop : ∀ (l : List Nat) (groups : List (List VId)), groups.length = num →
      ((∃ groups', l.foldlM (fun groups i =>
          if communities.getD i 0 < groups.length then
            Except.ok (pushBack groups (communities.getD i 0) i)
          else .error MemError.outOfRange) groups = .ok groups') ↔
        ∀ i ∈ l, communities.getD i 0 < num) := by
    intro l
    induction l with
    | nil => exact fun groups _ => iff_of_true ⟨groups, rfl⟩ fun i hi => absurd hi not_mem_nil
    | cons i l ih =>
      intro groups hlen
      rw [foldlM_cons, forall_mem_cons, hlen]
      split_ifs with hi
      · rw [and_iff_right hi]
        exact ih _ ((length_pushBack _ _ _).trans hlen)
      · exact iff_of_false (fun h => nomatch h.choose_spec) fun h => hi h.1
  refine ⟨(hloop _ _ length_replicate).trans ?_, fun e he => ?_⟩
  · constructor
    · intro h c hc
      obtain ⟨i, hi, rfl⟩ := getElem_of_mem hc
      have hlt := h i (mem_range.2 hi)
      rwa [getD_eq_getElem _ _ hi] at hlt
    · intro h i hi
      rw [getD_eq_getElem _ _ (mem_range.1 hi)]
      exact h _ (getElem_mem _)
  · refine Except.foldlM_error (P := fun e => e = .outOfRange) (fun groups i e he => ?_) he
    split_ifs at he
    exact (Except.error.inj he).symm

/-- A list of the constructor: as recorded, or sorted and without repeats. -/
def fileRow (deduplication : Bool) (lines : List (List Char)) (v : Nat) : List VId :=
  if deduplication then unique ((recorded lines v).insertionSort (· ≤ ·)) else recorded lines v

/-- A community number whose successor is 0 in 32 bits. -/
def WrapsCommunity (lines : List (List Char)) : Prop :=
  ∃ line ∈ lines, ∃ v, parseLine line = .vertex v (2 ^ 32 - 1)

/-- The last loop leaves its array. -/
def Crashes (lines : List (List Char)) : Prop :=
  WrapsCommunity lines ∧ lastHeader lines ≠ some 0

/-- The graph of the lines. -/
structure BuiltFrom (deduplication : Bool) (lines : List (List Char)) (g : SubCom) : Prop where
  header : ∀ n, lastHeader lines = some n → g.numVertices = n
  ids : lastHeader lines = none → 0 < g.numVertices ∧ ∀ line ∈ lines, match parseLine line with
    | .vertex vertexId _ => vertexId < g.numVertices
    | .edge src dst => src < g.numVertices ∧ dst < g.numVertices
    | _ => True
  small : g.numVertices ≤ maxVertices + 1
  rows : HoldsRows g.offsets g.neighborList
    ((List.range g.numVertices).map (fileRow deduplication lines))

theorem parseLine_vertex_lt {line : List Char} {v c : Nat} (h : parseLine line = .vertex v c) :
    c < 2 ^ 32 := by
  rw [parseLine_eq] at h
  rcases hw : writtenLine line with _ | _ | ⟨a, b⟩ | _
  all_goals rw [hw] at h
  · exact nomatch h
  · exact nomatch h
  · rw [← (GraphLine.vertex.inj h).2]
    exact mod_lt _ (by decide)
  · exact nomatch h

theorem lastHeader_mem {lines : List (List Char)} {n : Nat} (h : lastHeader lines = some n) :
    ∃ line ∈ lines, ∃ m, parseLine line = .header n m := by
  induction lines using List.reverseRecOn with
  | nil => exact nomatch h
  | append_singleton lines line ih =>
    rw [lastHeader_concat] at h
    rcases hp : parseLine line with _ | ⟨k, m⟩ | _ | _
    · rw [hp] at h
      obtain ⟨l, hl, hm⟩ := ih h
      exact ⟨l, mem_append_left _ hl, hm⟩
    · rw [hp] at h
      obtain rfl := Option.some.inj h
      exact ⟨line, mem_append_right _ mem_cons_self, m, hp⟩
    all_goals
      rw [hp] at h
      obtain ⟨l, hl, hm⟩ := ih h
      exact ⟨l, mem_append_left _ hl, hm⟩

section Finish

variable {lines : List (List Char)} {s : Loading} {deduplication : Bool}

theorem Loading.Read.wraps_iff (h : s.Read lines) :
    s.maxCommunityId < 2 ^ 32 ∧ (WrapsCommunity lines ↔ s.maxCommunityId + 1 = 2 ^ 32) := by
  have hlt : s.maxCommunityId < 2 ^ 32 := by
    rcases h.maxCommunity.2 with hz | ⟨line, _, v, hp⟩
    · rw [hz]
      decide
    · exact parseLine_vertex_lt hp
  refine ⟨hlt, fun hw => ?_, fun he => ?_⟩
  · obtain ⟨line, hl, v, hp⟩ := hw
    have hle := h.maxCommunity.1 line hl v _ hp
    omega
  · rcases h.maxCommunity.2 with hz | ⟨line, hl, v, hp⟩
    · omega
    · refine ⟨line, hl, v, ?_⟩
      rw [hp]
      congr 1
      omega

/-- The number of vertices at the end. -/
def Loading.count (s : Loading) : Nat :=
  if s.headerParsed then s.numVFromHeader else (s.maxVertexId + 1) % 2 ^ 32

/-- The lists at the end. -/
def Loading.rows (s : Loading) (deduplication : Bool) : List (List VId) :=
  if deduplication then
    (resize s.adjList s.count []).map fun l => unique (l.insertionSort (· ≤ ·))
  else resize s.adjList s.count []

section

variable (h : s.Read lines)
include h

theorem Loading.Read.rows_eq :
    s.rows deduplication = (List.range s.count).map (fileRow deduplication lines) := by
  have hresize : resize s.adjList s.count [] = (List.range s.count).map (recorded lines) := by
    conv_lhs => rw [← map_getD_range (resize s.adjList s.count []) [], length_resize]
    refine map_congr_left fun v hv => ?_
    rw [getD_resize, if_pos (mem_range.1 hv), h.rows]
  unfold Loading.rows fileRow
  split_ifs
  · rw [hresize, map_map]
    rfl
  · exact hresize

/-- With a header the number of vertices is the one it gives. -/
theorem Loading.Read.count_header (hgood : ∀ line ∈ lines, ¬Rejected line) {n : Nat}
    (hn : lastHeader lines = some n) : s.count = n ∧ n ≤ maxVertices := by
  obtain ⟨line, hl, m, hp⟩ := lastHeader_mem hn
  have hnot := hgood line hl
  unfold Rejected at hnot
  rw [hp] at hnot
  refine ⟨?_, Nat.le_of_not_lt hnot⟩
  unfold Loading.count
  rw [h.parsed, hn]
  exact (h.num n hn).1

/-- Without one it is the largest id and one more. -/
theorem Loading.Read.count_headerless (hn : lastHeader lines = none) :
    s.count = s.maxVertexId + 1 ∧ s.maxVertexId ≤ maxVertices := by
  have hle := (h.capped hn).2
  have hmax : maxVertices + 1 < 2 ^ 32 := by decide
  unfold Loading.count
  rw [h.parsed, hn]
  refine ⟨?_, hle⟩
  show (s.maxVertexId + 1) % 2 ^ 32 = _
  exact mod_eq_of_lt (by omega)

/-- Every community has an entry, unless the number of communities wraps and there is a vertex. -/
theorem Loading.Read.communities_lt_iff (hgood : ∀ line ∈ lines, ¬Rejected line) :
    (∀ c ∈ resize s.tempCommunities s.count 0, c < (s.maxCommunityId + 1) % 2 ^ 32) ↔
      ¬Crashes lines := by
  obtain ⟨hlt, hwraps⟩ := h.wraps_iff
  constructor
  · intro hall hcrash
    obtain ⟨hw, hne⟩ := hcrash
    have hpos : 0 < s.count := by
      rcases hn : lastHeader lines with _ | n
      · rw [(h.count_headerless hn).1]
        omega
      · rw [(h.count_header hgood hn).1]
        refine Nat.pos_of_ne_zero fun hz => hne ?_
        rw [hn, hz]
    have hzero : (s.maxCommunityId + 1) % 2 ^ 32 = 0 := by rw [hwraps.1 hw, mod_self]
    have hmem : (resize s.tempCommunities s.count 0).getD 0 0 ∈
        resize s.tempCommunities s.count 0 := by
      rw [getD_eq_getElem _ _ (by rw [length_resize]; exact hpos)]
      exact getElem_mem _
    have hbelow := hall _ hmem
    rw [hzero] at hbelow
    exact Nat.not_lt_zero _ hbelow
  · intro hcrash c hc
    by_cases hw : WrapsCommunity lines
    · -- a header with no vertices
      have hzero : lastHeader lines = some 0 := by
        by_contra hne
        exact hcrash ⟨hw, hne⟩
      have hlen : (resize s.tempCommunities s.count 0).length = 0 := by
        rw [length_resize, (h.count_header hgood hzero).1]
      rw [length_eq_zero_iff.1 hlen] at hc
      exact absurd hc not_mem_nil
    · have hne : s.maxCommunityId + 1 ≠ 2 ^ 32 := fun he => hw (hwraps.2 he)
      rw [mod_eq_of_lt (by omega)]
      rcases mem_resize hc with hc | rfl
      · exact lt_succ_of_le (h.communities c hc)
      · exact succ_pos _

end

/-- The two arrays of a graph built over given lists. -/
theorem holdsRows_of_lists (rows : List (List VId)) :
    HoldsRows (starts (rows.map List.length))
      (fillRows (starts (rows.map List.length)) (fun v => rows.getD v [])
        (List.range rows.length)
        (List.replicate ((starts (rows.map List.length)).getD rows.length 0) 0)) rows := by
  have hmap : (List.range rows.length).map (fun v => rows.getD v []) = rows :=
    map_getD_range rows []
  have hheld := @holdsRows_fillRows (List.range rows.length) nodup_range
    (fun v => rows.getD v []) rows.length (fun v hv => mem_range.1 hv) (fun v hv => ?_)
    (starts (rows.map List.length)) (by rw [hmap])
  · rw [hmap] at hheld
    exact hheld
  · exact getD_eq_default _ _ (Nat.le_of_not_lt fun hlt => hv (mem_range.2 hlt))

/-- The loop over the communities decides what comes out. -/
theorem Loading.finish_eq (s : Loading) (deduplication : Bool) : s.finish deduplication =
    (buildCommunities (resize s.tempCommunities s.count 0)
      ((s.maxCommunityId + 1) % 2 ^ 32)).bind fun groups => .ok
      ⟨starts ((s.rows deduplication).map List.length),
        fillRows (starts ((s.rows deduplication).map List.length))
          (fun v => (s.rows deduplication).getD v []) (List.range s.count)
          (List.replicate
            ((starts ((s.rows deduplication).map List.length)).getD s.count 0) 0),
        resize s.tempCommunities s.count 0, groups, s.count⟩ := rfl

/-- The last part returns exactly if every community has an entry. -/
theorem Loading.Read.finish (h : s.Read lines) (hgood : ∀ line ∈ lines, ¬Rejected line) :
    (Crashes lines → s.finish deduplication = .error .outOfRange) ∧
      (¬Crashes lines → ∃ g, s.finish deduplication = .ok g ∧
        BuiltFrom deduplication lines g) := by
  obtain ⟨hbuild, herror⟩ := buildCommunities_iff (resize s.tempCommunities s.count 0)
    ((s.maxCommunityId + 1) % 2 ^ 32)
  rw [h.communities_lt_iff hgood] at hbuild
  constructor
  · intro hcrash
    rw [s.finish_eq]
    rcases hb : buildCommunities (resize s.tempCommunities s.count 0)
        ((s.maxCommunityId + 1) % 2 ^ 32) with e | groups
    · rw [herror e hb]
      rfl
    · exact absurd hcrash (hbuild.1 ⟨groups, hb⟩)
  · intro hcrash
    obtain ⟨groups, hb⟩ := hbuild.2 hcrash
    rw [s.finish_eq, hb]
    refine ⟨_, rfl, ⟨fun n hn => (h.count_header hgood hn).1,
      fun hn => ⟨?_, fun line hl => ?_⟩, ?_, ?_⟩⟩
    · show 0 < s.count
      rw [(h.count_headerless hn).1]
      omega
    · have hids := h.ids hn line hl
      have hcount := (h.count_headerless hn).1
      rcases hp : parseLine line with _ | _ | ⟨v, c⟩ | ⟨src, dst⟩
      · trivial
      · trivial
      all_goals
        rw [hp] at hids
        dsimp only at hids ⊢
        omega
    · show s.count ≤ _
      rcases hn : lastHeader lines with _ | n
      · have hle := h.count_headerless hn
        omega
      · have hle := h.count_header hgood hn
        omega
    · have hlen : (s.rows deduplication).length = s.count := by
        rw [h.rows_eq, length_map, length_range]
      have hheld := holdsRows_of_lists (s.rows deduplication)
      rw [hlen, h.rows_eq] at hheld
      dsimp only
      rw [h.rows_eq]
      exact hheld

end Finish

/-- What the constructor does with a file. -/
theorem ofFile_cases (filename : String) (content : List Char) (hasCommunities deduplication : Bool) :
    ((∃ line ∈ getlines content, Rejected line) ∧ ∃ message,
      SubCom.ofFile filename (some content) hasCommunities deduplication =
        .error (.runtimeError message)) ∨
    ((∀ line ∈ getlines content, ¬Rejected line) ∧ Crashes (getlines content) ∧
      SubCom.ofFile filename (some content) hasCommunities deduplication = .error .outOfRange) ∨
    ((∀ line ∈ getlines content, ¬Rejected line) ∧ ¬Crashes (getlines content) ∧
      ∃ g, SubCom.ofFile filename (some content) hasCommunities deduplication = .ok g ∧
        BuiltFrom deduplication (getlines content) g) := by
  have hiff := Except.foldlM_ok_iff (line_ok_iff hasCommunities) (l := getlines content)
    (s := Loading.start)
  have hsplit : SubCom.ofFile filename (some content) hasCommunities deduplication =
      ((getlines content).foldlM (Loading.line hasCommunities) Loading.start).bind
        fun s => s.finish deduplication := rfl
  by_cases hgood : ∀ line ∈ getlines content, ¬Rejected line
  · obtain ⟨s, hs⟩ := hiff.2 hgood
    obtain ⟨hcrash, hok⟩ := @Loading.Read.finish _ _ deduplication (read_lines hs) hgood
    rw [hsplit, hs]
    by_cases hc : Crashes (getlines content)
    · exact .inr (.inl ⟨hgood, hc, hcrash hc⟩)
    · exact .inr (.inr ⟨hgood, hc, hok hc⟩)
  · refine .inl ⟨?_, ?_⟩
    · by_contra hno
      exact hgood fun line hl hr => hno ⟨line, hl, hr⟩
    · rcases hf : (getlines content).foldlM (Loading.line hasCommunities) Loading.start with e | s
      · obtain ⟨message, rfl⟩ := Except.foldlM_error
          (P := fun e => ∃ message, e = MemError.runtimeError message)
          (fun _ _ _ he => line_error he) hf
        refine ⟨message, ?_⟩
        rw [hsplit, hf]
        rfl
      · exact absurd (hiff.1 ⟨s, hf⟩) hgood

end BwGraph
